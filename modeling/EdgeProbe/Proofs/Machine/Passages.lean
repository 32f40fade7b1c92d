import EdgeProbe.Probe.Site
import EdgeProbe.Proofs.Machine.Sustained

/-!
# What a run passes

`World.Passes` takes a run that returns apart: into the blocks that are entered, the instructions
that are executed, the edges that are taken and the calls in between. It lists, in this order, the
functions with bodies that are entered and the edges that are taken. Each run that returns passes
exactly one list of sites. Main statement: `World.existsUnique_callPasses`.
-/

namespace EdgeProbe

namespace World

variable (w : World)

/-- The number of the edge that the end of a block takes, if it takes one without a call. -/
def edgeTaken (a : Activation) (frame : Frame) : Terminator → Exec Nat
  | .condBr cond _ _ => return if (← w.eval a frame cond) &&& 1 == 1 then 0 else 1
  | .switch value _ cases => do
    let width ← widthOf a value
    let bits := mask width (← w.eval a frame value)
    match cases.findIdx? fun case => mask width case.1 == bits with
    | some k => return k + 1
    | none => return 0
  | _ => return 0

/-- From a moment on an activation passes these sites until it returns a value. -/
inductive Passes : Moment → List ProbeSite → UInt64 → Store → Prop
  | enter {id : FuncId} {a : Activation} {n : Nat} {es : List BlockId} {c : Cursor} {s s₁ s' : Store}
    {b : Block} {phis : List InstId} {values : List (InstId × UInt64)} {sites : List ProbeSite}
    {v : UInt64} (hb : a.function.block c.block = .ok b)
    (hphis : a.function.phis c.block = .ok phis)
    (hvalues : w.enteredPhis a c.frame c.source phis s = .ok values s₁)
    (hrest : Passes ⟨id, a, n + 1, c.entering es,
      .within c.block (b.insts.drop phis.length) (setAll c.frame values), s₁⟩ sites v s') :
    Passes ⟨id, a, n + 1, es, .arriving c, s⟩ sites v s'
  | execute {id : FuncId} {a : Activation} {n : Nat} {es : List BlockId} {block : BlockId}
    {i : InstId} {insts : List InstId} {frame : Frame} {s s₁ s₂ s' : Store} {kind : InstKind}
    {value : UInt64} {sites : List ProbeSite} {v : UInt64} (htick : Exec.tick s = .ok () s₁)
    (hkind : a.function.kind i = .ok kind) (hcall : kind.isCall = false)
    (hstep : w.step w.alone a frame i s₁ = .ok value s₂)
    (hrest : Passes ⟨id, a, n + 1, es, .within block insts (frame.insert i value), s₂⟩ sites v s') :
    Passes ⟨id, a, n + 1, es, .within block (i :: insts) frame, s⟩ sites v s'
  /-- The function that is called has no body. -/
  | declared {id callId : FuncId} {a : Activation} {n : Nat} {es : List BlockId} {block : BlockId}
    {i : InstId} {insts : List InstId} {frame : Frame} {s s₁ s₂ s₃ s' : Store} {callee : Callee}
    {args : List Value} {ret : Ty} {values : List UInt64} {f : Function} {value : UInt64}
    {sites : List ProbeSite} {v : UInt64} (htick : Exec.tick s = .ok () s₁)
    (hkind : a.function.kind i = .ok (.call callee args ret))
    (htarget : w.target a frame callee args s₁ = .ok (callId, values) s₂)
    (hf : w.module.function callId = .ok f) (hentry : f.entryBlock? = none)
    (hcall : w.callDeclared f values s₂ = .ok value s₃)
    (hrest : Passes ⟨id, a, n + 1, es, .within block insts (frame.insert i value), s₃⟩ sites v s') :
    Passes ⟨id, a, n + 1, es, .within block (i :: insts) frame, s⟩ sites v s'
  | call {id callId : FuncId} {a : Activation} {n : Nat} {es : List BlockId} {block entry : BlockId}
    {i : InstId} {insts : List InstId} {frame : Frame} {s s₁ s₂ s₃ s' : Store} {callee : Callee}
    {args : List Value} {ret : Ty} {values : List UInt64} {f : Function} {value : UInt64}
    {inner sites : List ProbeSite} {v : UInt64} (htick : Exec.tick s = .ok () s₁)
    (hkind : a.function.kind i = .ok (.call callee args ret))
    (htarget : w.target a frame callee args s₁ = .ok (callId, values) s₂)
    (hf : w.module.function callId = .ok f) (hentry : f.entryBlock? = some entry)
    (hcall : Passes (.start callId f entry values n s₂) inner value s₃)
    (hrest : Passes ⟨id, a, n + 1, es, .within block insts (frame.insert i value), s₃⟩ sites v s') :
    Passes ⟨id, a, n + 1, es, .within block (i :: insts) frame, s⟩
      (.entry callId :: (inner ++ sites)) v s'
  | branch {id : FuncId} {a : Activation} {n : Nat} {es : List BlockId} {block : BlockId} {b : Block}
    {frame : Frame} {s s₁ s₂ s' : Store} {c : Cursor} {k : Nat} {sites : List ProbeSite} {v : UInt64}
    (hb : a.function.block block = .ok b) (htick : Exec.tick s = .ok () s₁)
    (hcalls : b.term.calls = false)
    (hterm : w.runTerminator w.alone a frame block b.term s₁ = .ok (.jump c) s₂)
    (hedge : w.edgeTaken a frame b.term s₁ = .ok k s₂)
    (hrest : Passes ⟨id, a, n, es, .arriving c, s₂⟩ sites v s') :
    Passes ⟨id, a, n + 1, es, .within block [] frame, s⟩ (.edge id block k :: sites) v s'
  | invokeDeclared {id callId : FuncId} {a : Activation} {n : Nat} {es : List BlockId}
    {block normal unwind : BlockId} {b : Block} {frame : Frame} {s s₁ s₂ s₃ s' : Store}
    {callee : Callee} {args : List Value} {values : List UInt64} {f : Function} {value : UInt64}
    {sites : List ProbeSite} {v : UInt64} (hb : a.function.block block = .ok b)
    (hterm : b.term = .invoke callee args normal unwind) (htick : Exec.tick s = .ok () s₁)
    (htarget : w.target a frame callee args s₁ = .ok (callId, values) s₂)
    (hf : w.module.function callId = .ok f) (hentry : f.entryBlock? = none)
    (hcall : w.callDeclared f values s₂ = .ok value s₃)
    (hrest : Passes ⟨id, a, n, es, .arriving ⟨frame, some block, normal⟩, s₃⟩ sites v s') :
    Passes ⟨id, a, n + 1, es, .within block [] frame, s⟩ (.edge id block 0 :: sites) v s'
  | invoke {id callId : FuncId} {a : Activation} {n : Nat} {es : List BlockId}
    {block entry normal unwind : BlockId} {b : Block} {frame : Frame} {s s₁ s₂ s₃ s' : Store}
    {callee : Callee} {args : List Value} {values : List UInt64} {f : Function} {value : UInt64}
    {inner sites : List ProbeSite} {v : UInt64} (hb : a.function.block block = .ok b)
    (hterm : b.term = .invoke callee args normal unwind) (htick : Exec.tick s = .ok () s₁)
    (htarget : w.target a frame callee args s₁ = .ok (callId, values) s₂)
    (hf : w.module.function callId = .ok f) (hentry : f.entryBlock? = some entry)
    (hcall : Passes (.start callId f entry values n s₂) inner value s₃)
    (hrest : Passes ⟨id, a, n, es, .arriving ⟨frame, some block, normal⟩, s₃⟩ sites v s') :
    Passes ⟨id, a, n + 1, es, .within block [] frame, s⟩
      (.entry callId :: (inner ++ .edge id block 0 :: sites)) v s'
  | result {id : FuncId} {a : Activation} {n : Nat} {es : List BlockId} {block : BlockId} {b : Block}
    {frame : Frame} {s s₁ s' : Store} {v : UInt64} (hb : a.function.block block = .ok b)
    (htick : Exec.tick s = .ok () s₁)
    (hterm : w.runTerminator w.alone a frame block b.term s₁ = .ok (.result v) s') :
    Passes ⟨id, a, n + 1, es, .within block [] frame, s⟩ [] v s'

/-- A call by name passes these sites until it returns a value. -/
inductive CallPasses (name : String) (args : List UInt64) (s : Store) :
    List ProbeSite → UInt64 → Store → Prop
  | body {id : FuncId} {f : Function} {entry : BlockId} {sites : List ProbeSite} {v : UInt64}
    {s' : Store} (hid : w.module.findFunction? name = some id) (hf : w.module.function id = .ok f)
    (hentry : f.entryBlock? = some entry)
    (hpasses : w.Passes (.start id f entry args (s.stepsLeft + 1) s) sites v s') :
    CallPasses name args s (.entry id :: sites) v s'
  | declared {id : FuncId} {f : Function} {v : UInt64} {s' : Store}
    (hid : w.module.findFunction? name = some id) (hf : w.module.function id = .ok f)
    (hentry : f.entryBlock? = none) (hcall : w.callDeclared f args s = .ok v s') :
    CallPasses name args s [] v s'

variable {w} {a : Activation} {frame : Frame} {s s₁ s₂ s₃ s' : Store}

/-- A branch leads along the edge that it takes. -/
theorem edgeTaken_of_jump {caller : Caller} {block : BlockId} {term : Terminator} {c : Cursor}
    (hcalls : term.calls = false)
    (h : w.runTerminator caller a frame block term s = .ok (.jump c) s') :
    ∃ k, w.edgeTaken a frame term s = .ok k s' ∧ term.successors[k]? = some c.block ∧
      c = ⟨frame, some block, c.block⟩ := by
  unfold runTerminator at h
  cases term with
  | ret value =>
    cases value with
    | none => cases h
    | some value =>
      obtain ⟨v, s₁, -, h⟩ := Exec.bind_eq_ok.mp h
      cases h
  | br target =>
    obtain ⟨hjump, rfl⟩ := EStateM.Result.ok.inj h
    obtain rfl := Outcome.jump.inj hjump
    exact ⟨0, rfl, rfl, rfl⟩
  | condBr cond onTrue onFalse =>
    obtain ⟨v, s₁, hcond, h⟩ := Exec.bind_eq_ok.mp h
    obtain ⟨hjump, rfl⟩ := EStateM.Result.ok.inj h
    obtain rfl := Outcome.jump.inj hjump
    refine ⟨if v &&& 1 == 1 then 0 else 1, Exec.bind_eq_ok.mpr ⟨v, s₁, hcond, rfl⟩, ?_, rfl⟩
    dsimp only
    split <;> rfl
  | switch value default cases =>
    obtain ⟨width, s₁, hwidth, h⟩ := Exec.bind_eq_ok.mp h
    obtain ⟨v, s₂, hv, h⟩ := Exec.bind_eq_ok.mp h
    have hfind : (cases.find? fun case => mask width case.1 == mask width v) =
        (cases.findIdx? fun case => mask width case.1 == mask width v).bind (cases[·]?) := by
      rw [List.find?_eq_bind_findIdx?_getElem?]
    dsimp only at h
    rw [hfind] at h
    cases hindex : cases.findIdx? fun case => mask width case.1 == mask width v with
    | none =>
      rw [hindex] at h
      obtain ⟨hjump, rfl⟩ := EStateM.Result.ok.inj h
      obtain rfl := Outcome.jump.inj hjump
      refine ⟨0, Exec.bind_eq_ok.mpr ⟨width, s₁, hwidth, Exec.bind_eq_ok.mpr ⟨v, _, hv, ?_⟩⟩, rfl, rfl⟩
      rw [hindex]
      rfl
    | some k =>
      obtain ⟨hlt, -⟩ := List.findIdx?_eq_some_iff_getElem.mp hindex
      rw [hindex, Option.bind_some, List.getElem?_eq_getElem hlt] at h
      obtain ⟨hjump, rfl⟩ := EStateM.Result.ok.inj h
      obtain rfl := Outcome.jump.inj hjump
      refine ⟨k + 1, Exec.bind_eq_ok.mpr ⟨width, s₁, hwidth, Exec.bind_eq_ok.mpr ⟨v, _, hv, ?_⟩⟩, ?_, rfl⟩
      · rw [hindex]
        rfl
      · simp [Terminator.successors, hlt]
  | invoke callee args normal unwind => cases hcalls
  | resume value => cases h
  | unreachable => cases h

theorem step_call {caller : Caller} {i : InstId} {callee : Callee} {args : List Value} {ret : Ty}
    (hkind : a.function.kind i = .ok (.call callee args ret)) :
    w.step caller a frame i = w.performCall caller a frame callee args := by
  rw [step, hkind]
  rfl

theorem runTerminator_invoke {caller : Caller} {block normal unwind : BlockId} {callee : Callee}
    {args : List Value} :
    w.runTerminator caller a frame block (.invoke callee args normal unwind) = (do
      let _ ← w.performCall caller a frame callee args
      return .jump ⟨frame, some block, normal⟩) :=
  rfl

theorem runTerminator_of_not_calls {caller : Caller} {block : BlockId} {term : Terminator}
    (hcalls : term.calls = false) (caller' : Caller) :
    w.runTerminator caller' a frame block term = w.runTerminator caller a frame block term := by
  refine runTerminator_of_not_invoke (fun callee args normal unwind heq => ?_) caller'
  rw [heq] at hcalls
  cases hcalls

theorem runTerminator_alone {block : BlockId} {term : Terminator} (hcalls : term.calls = false)
    (caller : Caller) :
    w.runTerminator caller a frame block term = w.runTerminator w.alone a frame block term :=
  runTerminator_of_not_calls hcalls caller

/-- A block that ends in a call leads on. -/
theorem calls_of_result {caller : Caller} {block : BlockId} {term : Terminator} {v : UInt64}
    (h : w.runTerminator caller a frame block term s = .ok (.result v) s') : term.calls = false := by
  cases term with
  | invoke callee args normal unwind =>
    rw [runTerminator_invoke] at h
    obtain ⟨_, s₁, -, hend⟩ := Exec.bind_eq_ok.mp h
    cases hend
  | _ => rfl

/-- What a call comes to, once it is known what is called. -/
theorem performCall_of_target {caller : Caller} {callee : Callee} {args : List Value} {callId : FuncId}
    {values : List UInt64} (htarget : w.target a frame callee args s = .ok (callId, values) s₁) :
    w.performCall caller a frame callee args s = caller callId values s₁ := by
  rw [performCall_eq]
  change EStateM.bind _ _ s = _
  rw [EStateM.bind, htarget]

section

variable {runBody : Activation → Cursor → Exec UInt64} {id : FuncId} {f : Function}
  {values : List UInt64}

theorem enter_of_body {entry : BlockId} (hf : w.module.function id = .ok f)
    (hentry : f.entryBlock? = some entry) :
    w.enter runBody id values = runBody ⟨f, values⟩ ⟨∅, none, entry⟩ := by
  rw [enter, hf, Exec.ofChecked_ok, pure_bind, hentry]

theorem enter_of_bodiless (hf : w.module.function id = .ok f) (hentry : f.entryBlock? = none) :
    w.enter runBody id values = w.callDeclared f values := by
  rw [enter, hf, Exec.ofChecked_ok, pure_bind, hentry]

end

/-! ## Runs and what they pass -/

/-- The activation returns a value from the moment on. -/
def Returns (w : World) (moment : Moment) (v : UInt64) (s' : Store) : Prop :=
  match moment.place with
  | .arriving c => w.run moment.fuel moment.activation c moment.store = .ok v s'
  | .within block insts frame => ∃ n b, moment.fuel = n + 1 ∧
    moment.activation.function.block block = .ok b ∧
      w.rest n moment.activation block b.term insts frame moment.store = .ok v s'

theorem Passes.returns {moment : Moment} {sites : List ProbeSite} {v : UInt64}
    (h : w.Passes moment sites v s') : w.Returns moment v s' := by
  induction h with
  | @enter id a n es c s s₁ s' b phis values sites v hb hphis hvalues _ ih =>
    obtain ⟨m, b', hn, hb', hrest⟩ := ih
    obtain rfl := Nat.succ.inj hn
    obtain rfl := Except.ok.inj (hb.symm.trans hb')
    change w.run (n + 1) a c s = _
    simp only [run_succ, hb, hphis, Exec.ofChecked_ok, pure_bind]
    exact Exec.bind_eq_ok.mpr ⟨values, s₁, hvalues, hrest⟩
  | @execute id a n es block i insts frame s s₁ s₂ s' kind value sites v htick hkind hcall hstep _ ih =>
    obtain ⟨m, b, hn, hb, hrest⟩ := ih
    obtain rfl := Nat.succ.inj hn
    refine ⟨n, b, rfl, hb, ?_⟩
    rw [rest_cons]
    refine Exec.bind_eq_ok.mpr ⟨(), s₁, htick, Exec.bind_eq_ok.mpr ⟨value, s₂, ?_, hrest⟩⟩
    exact (congrFun (step_of_not_call hkind hcall (w.enter (w.run n))) s₁).trans hstep
  | @declared id callId a n es block i insts frame s s₁ s₂ s₃ s' callee args ret values f value sites v
      htick hkind htarget hf hentry hcall _ ih =>
    obtain ⟨m, b, hn, hb, hrest⟩ := ih
    obtain rfl := Nat.succ.inj hn
    refine ⟨n, b, rfl, hb, ?_⟩
    rw [rest_cons]
    refine Exec.bind_eq_ok.mpr ⟨(), s₁, htick, Exec.bind_eq_ok.mpr ⟨value, s₃, ?_, hrest⟩⟩
    exact (congrFun (step_call hkind) s₁).trans ((performCall_of_target htarget).trans
      ((congrFun (enter_of_bodiless hf hentry) s₂).trans hcall))
  | @call id callId a n es block entry i insts frame s s₁ s₂ s₃ s' callee args ret values f value inner
      sites v htick hkind htarget hf hentry _ _ ihcall ih =>
    obtain ⟨m, b, hn, hb, hrest⟩ := ih
    obtain rfl := Nat.succ.inj hn
    refine ⟨n, b, rfl, hb, ?_⟩
    rw [rest_cons]
    refine Exec.bind_eq_ok.mpr ⟨(), s₁, htick, Exec.bind_eq_ok.mpr ⟨value, s₃, ?_, hrest⟩⟩
    exact (congrFun (step_call hkind) s₁).trans ((performCall_of_target htarget).trans
      ((congrFun (enter_of_body hf hentry) s₂).trans ihcall))
  | @branch id a n es block b frame s s₁ s₂ s' c k sites v hb htick hcalls hterm hedge _ ih =>
    refine ⟨n, b, rfl, hb, ?_⟩
    rw [rest_nil]
    refine Exec.bind_eq_ok.mpr ⟨(), s₁, htick, Exec.bind_eq_ok.mpr ⟨.jump c, s₂, ?_, ih⟩⟩
    exact (congrFun (runTerminator_of_not_calls hcalls (w.enter (w.run n))) s₁).trans hterm
  | @invokeDeclared id callId a n es block normal unwind b frame s s₁ s₂ s₃ s' callee args values f value
      sites v hb hterm htick htarget hf hentry hcall _ ih =>
    refine ⟨n, b, rfl, hb, ?_⟩
    rw [rest_nil]
    refine Exec.bind_eq_ok.mpr ⟨(), s₁, htick, Exec.bind_eq_ok.mpr
      ⟨.jump ⟨frame, some block, normal⟩, s₃, ?_, ih⟩⟩
    rw [hterm, runTerminator_invoke]
    refine Exec.bind_eq_ok.mpr ⟨value, s₃, ?_, rfl⟩
    exact (performCall_of_target htarget).trans
      ((congrFun (enter_of_bodiless hf hentry) s₂).trans hcall)
  | @invoke id callId a n es block entry normal unwind b frame s s₁ s₂ s₃ s' callee args values f value
      inner sites v hb hterm htick htarget hf hentry _ _ ihcall ih =>
    refine ⟨n, b, rfl, hb, ?_⟩
    rw [rest_nil]
    refine Exec.bind_eq_ok.mpr ⟨(), s₁, htick, Exec.bind_eq_ok.mpr
      ⟨.jump ⟨frame, some block, normal⟩, s₃, ?_, ih⟩⟩
    rw [hterm, runTerminator_invoke]
    refine Exec.bind_eq_ok.mpr ⟨value, s₃, ?_, rfl⟩
    exact (performCall_of_target htarget).trans
      ((congrFun (enter_of_body hf hentry) s₂).trans ihcall)
  | @result id a n es block b frame s s₁ s' v hb htick hterm =>
    refine ⟨n, b, rfl, hb, ?_⟩
    rw [rest_nil]
    refine Exec.bind_eq_ok.mpr ⟨(), s₁, htick, Exec.bind_eq_ok.mpr ⟨.result v, s', ?_, rfl⟩⟩
    exact (congrFun (runTerminator_of_not_calls (calls_of_result hterm) (w.enter (w.run n))) s₁).trans
      hterm

/-- Runs of some fuel that return pass sites. -/
def RunPasses (w : World) (n : Nat) : Prop :=
  ∀ id a es c s v s', w.run n a c s = .ok v s' →
    ∃ sites, w.Passes ⟨id, a, n, es, .arriving c, s⟩ sites v s'

/-- What a call that returns has come to. -/
inductive CallCases (w : World) (a : Activation) (n : Nat) (frame : Frame) (callee : Callee)
    (args : List Value) (s : Store) (value : UInt64) (s' : Store) : Prop
  | declared {callId : FuncId} {values : List UInt64} {f : Function} {s₁ : Store}
    (htarget : w.target a frame callee args s = .ok (callId, values) s₁)
    (hf : w.module.function callId = .ok f) (hentry : f.entryBlock? = none)
    (hcall : w.callDeclared f values s₁ = .ok value s')
  | body {callId : FuncId} {values : List UInt64} {f : Function} {entry : BlockId} {s₁ : Store}
    {inner : List ProbeSite} (htarget : w.target a frame callee args s = .ok (callId, values) s₁)
    (hf : w.module.function callId = .ok f) (hentry : f.entryBlock? = some entry)
    (hcall : w.Passes (.start callId f entry values n s₁) inner value s')

theorem RunPasses.callCases {n : Nat} (ih : w.RunPasses n) {callee : Callee} {args : List Value}
    {value : UInt64} (h : w.performCall (w.enter (w.run n)) a frame callee args s = .ok value s') :
    w.CallCases a n frame callee args s value s' := by
  rw [performCall_eq] at h
  obtain ⟨⟨callId, values⟩, s₁, htarget, h⟩ := Exec.bind_eq_ok.mp h
  obtain ⟨f, hf, hgo⟩ := Exec.ofChecked_bind_eq_ok.mp h
  cases hentry : f.entryBlock? with
  | none =>
    rw [hentry] at hgo
    exact .declared htarget hf hentry hgo
  | some entry =>
    rw [hentry] at hgo
    obtain ⟨inner, hinner⟩ := ih callId ⟨f, values⟩ [] ⟨∅, none, entry⟩ s₁ value s' hgo
    exact .body htarget hf hentry hinner

theorem RunPasses.rest {n : Nat} (ih : w.RunPasses n) {id : FuncId} {es : List BlockId}
    {block : BlockId} {b : Block} (hb : a.function.block block = .ok b) {insts : List InstId}
    {v : UInt64} (h : w.rest n a block b.term insts frame s = .ok v s') :
    ∃ sites, w.Passes ⟨id, a, n + 1, es, .within block insts frame, s⟩ sites v s' := by
  induction insts generalizing frame s with
  | nil =>
    rw [rest_nil] at h
    obtain ⟨⟨⟩, s₁, htick, h⟩ := Exec.bind_eq_ok.mp h
    obtain ⟨outcome, s₂, hend, h⟩ := Exec.bind_eq_ok.mp h
    cases hcalls : b.term.calls with
    | true =>
      cases hterm : b.term with
      | invoke callee args normal unwind =>
        rw [hterm, runTerminator_invoke] at hend
        obtain ⟨value, s₃, hcall, hjump⟩ := Exec.bind_eq_ok.mp hend
        obtain ⟨rfl, rfl⟩ := EStateM.Result.ok.inj hjump
        obtain ⟨sites, hsites⟩ := ih id a es _ s₃ v s' h
        cases ih.callCases hcall with
        | declared htarget hf hentry hcall =>
          exact ⟨_, .invokeDeclared hb hterm htick htarget hf hentry hcall hsites⟩
        | body htarget hf hentry hcall =>
          exact ⟨_, .invoke hb hterm htick htarget hf hentry hcall hsites⟩
      | _ => rw [hterm] at hcalls; cases hcalls
    | false =>
      have hend : w.runTerminator w.alone a frame block b.term s₁ = .ok outcome s₂ :=
        (congrFun (runTerminator_of_not_calls hcalls w.alone) s₁).trans hend
      cases outcome with
      | result value =>
        obtain ⟨rfl, rfl⟩ := EStateM.Result.ok.inj h
        exact ⟨[], .result hb htick hend⟩
      | jump c =>
        obtain ⟨k, hedge, -, -⟩ := edgeTaken_of_jump hcalls hend
        obtain ⟨sites, hsites⟩ := ih id a es c s₂ v s' h
        exact ⟨_, .branch hb htick hcalls hend hedge hsites⟩
  | cons i insts ihrest =>
    rw [rest_cons] at h
    obtain ⟨⟨⟩, s₁, htick, h⟩ := Exec.bind_eq_ok.mp h
    obtain ⟨value, s₂, hstep, h⟩ := Exec.bind_eq_ok.mp h
    obtain ⟨sites, hsites⟩ := ihrest h
    have hkind : ∃ kind, a.function.kind i = .ok kind := by
      rw [step] at hstep
      obtain ⟨kind, hkind, -⟩ := Exec.ofChecked_bind_eq_ok.mp hstep
      exact ⟨kind, hkind⟩
    obtain ⟨kind, hkind⟩ := hkind
    cases hcall : kind.isCall with
    | false =>
      have hstep := (congrFun (step_of_not_call hkind hcall w.alone) s₁).trans hstep
      exact ⟨_, .execute htick hkind hcall hstep hsites⟩
    | true =>
      cases kind with
      | call callee args ret =>
        rw [step_call hkind] at hstep
        cases ih.callCases hstep with
        | declared htarget hf hentry hcall =>
          exact ⟨_, .declared htick hkind htarget hf hentry hcall hsites⟩
        | body htarget hf hentry hcall =>
          exact ⟨_, .call htick hkind htarget hf hentry hcall hsites⟩
      | _ => cases hcall

/-- A run that returns passes some sites. -/
theorem runPasses (w : World) (n : Nat) : w.RunPasses n := by
  induction n with
  | zero => exact fun _ _ _ _ _ _ _ h => by cases h
  | succ n ih =>
    intro id a es c s v s' h
    rw [run_succ] at h
    obtain ⟨b, hb, h⟩ := Exec.ofChecked_bind_eq_ok.mp h
    obtain ⟨phis, hphis, h⟩ := Exec.ofChecked_bind_eq_ok.mp h
    obtain ⟨values, s₁, hvalues, h⟩ := Exec.bind_eq_ok.mp h
    obtain ⟨sites, hsites⟩ := ih.rest hb h
    exact ⟨sites, .enter hb hphis hvalues hsites⟩

/-- So does a call by name that returns. -/
theorem exists_callPasses {name : String} {args : List UInt64} {v : UInt64}
    (h : w.call name args s = .ok v s') : ∃ sites, w.CallPasses name args s sites v s' := by
  cases hid : w.module.findFunction? name with
  | none =>
    rw [call, hid] at h
    cases h
  | some id =>
    rw [call_of_found hid] at h
    obtain ⟨f, hf, hgo⟩ := Exec.ofChecked_bind_eq_ok.mp h
    cases hentry : f.entryBlock? with
    | none =>
      rw [hentry] at hgo
      exact ⟨[], .declared hid hf hentry hgo⟩
    | some entry =>
      rw [hentry] at hgo
      obtain ⟨sites, hsites⟩ := w.runPasses _ id ⟨f, args⟩ [] _ s v s' hgo
      exact ⟨_, .body hid hf hentry hsites⟩

/-- What is called is determined. -/
theorem same_called {callee : Callee} {args : List Value} {t t' u u' : Store} {id id' : FuncId}
    {values values' : List UInt64} {f f' : Function} (htick : Exec.tick s = .ok () t)
    (htick' : Exec.tick s = .ok () t') (htarget : w.target a frame callee args t = .ok (id, values) u)
    (htarget' : w.target a frame callee args t' = .ok (id', values') u')
    (hf : w.module.function id = .ok f) (hf' : w.module.function id' = .ok f') :
    id = id' ∧ values = values' ∧ u = u' ∧ f = f' := by
  obtain ⟨-, rfl⟩ := EStateM.Result.ok.inj (htick.symm.trans htick')
  obtain ⟨heq, rfl⟩ := EStateM.Result.ok.inj (htarget.symm.trans htarget')
  obtain ⟨rfl, rfl⟩ := Prod.mk.inj heq
  exact ⟨rfl, rfl, rfl, Except.ok.inj (hf.symm.trans hf')⟩

/-- It passes no other ones. -/
theorem Passes.unique {moment : Moment} {sites sites' : List ProbeSite} {v v' : UInt64}
    (h : w.Passes moment sites v s₁) (h' : w.Passes moment sites' v' s₂) :
    sites = sites' ∧ v = v' ∧ s₁ = s₂ := by
  induction h generalizing sites' v' s₂ with
  | enter hb hphis hvalues _ ih =>
    cases h' with
    | enter hb' hphis' hvalues' hrest' =>
      obtain rfl := Except.ok.inj (hb.symm.trans hb')
      obtain rfl := Except.ok.inj (hphis.symm.trans hphis')
      obtain ⟨rfl, rfl⟩ := EStateM.Result.ok.inj (hvalues.symm.trans hvalues')
      exact ih hrest'
  | execute htick hkind hcall hstep _ ih =>
    cases h' with
    | execute htick' hkind' hcall' hstep' hrest' =>
      obtain ⟨-, rfl⟩ := EStateM.Result.ok.inj (htick.symm.trans htick')
      obtain ⟨rfl, rfl⟩ := EStateM.Result.ok.inj (hstep.symm.trans hstep')
      exact ih hrest'
    | declared _ hkind' | call _ hkind' =>
      obtain rfl := Except.ok.inj (hkind.symm.trans hkind')
      cases hcall
  | declared htick hkind htarget hf hentry hcall _ ih =>
    cases h' with
    | execute htick' hkind' hcall' hstep' hrest' =>
      obtain rfl := Except.ok.inj (hkind.symm.trans hkind')
      cases hcall'
    | declared htick' hkind' htarget' hf' hentry' hcall' hrest' =>
      obtain ⟨rfl, rfl, -⟩ := InstKind.call.inj (Except.ok.inj (hkind.symm.trans hkind'))
      obtain ⟨rfl, rfl, rfl, rfl⟩ := same_called htick htick' htarget htarget' hf hf'
      obtain ⟨rfl, rfl⟩ := EStateM.Result.ok.inj (hcall.symm.trans hcall')
      exact ih hrest'
    | call htick' hkind' htarget' hf' hentry' hcall' hrest' =>
      obtain ⟨rfl, rfl, -⟩ := InstKind.call.inj (Except.ok.inj (hkind.symm.trans hkind'))
      obtain ⟨rfl, rfl, rfl, rfl⟩ := same_called htick htick' htarget htarget' hf hf'
      cases hentry.symm.trans hentry'
  | call htick hkind htarget hf hentry _ _ ihcall ih =>
    cases h' with
    | execute htick' hkind' hcall' hstep' hrest' =>
      obtain rfl := Except.ok.inj (hkind.symm.trans hkind')
      cases hcall'
    | declared htick' hkind' htarget' hf' hentry' hcall' hrest' =>
      obtain ⟨rfl, rfl, -⟩ := InstKind.call.inj (Except.ok.inj (hkind.symm.trans hkind'))
      obtain ⟨rfl, rfl, rfl, rfl⟩ := same_called htick htick' htarget htarget' hf hf'
      cases hentry.symm.trans hentry'
    | call htick' hkind' htarget' hf' hentry' hcall' hrest' =>
      obtain ⟨rfl, rfl, -⟩ := InstKind.call.inj (Except.ok.inj (hkind.symm.trans hkind'))
      obtain ⟨rfl, rfl, rfl, rfl⟩ := same_called htick htick' htarget htarget' hf hf'
      obtain rfl := Option.some.inj (hentry.symm.trans hentry')
      obtain ⟨rfl, rfl, rfl⟩ := ihcall hcall'
      obtain ⟨rfl, rfl, rfl⟩ := ih hrest'
      exact ⟨rfl, rfl, rfl⟩
  | branch hb htick hcalls hterm hedge _ ih =>
    cases h' with
    | branch hb' htick' hcalls' hterm' hedge' hrest' =>
      obtain rfl := Except.ok.inj (hb.symm.trans hb')
      obtain ⟨-, rfl⟩ := EStateM.Result.ok.inj (htick.symm.trans htick')
      obtain ⟨hjump, rfl⟩ := EStateM.Result.ok.inj (hterm.symm.trans hterm')
      obtain rfl := Outcome.jump.inj hjump
      obtain ⟨rfl, -⟩ := EStateM.Result.ok.inj (hedge.symm.trans hedge')
      obtain ⟨rfl, rfl, rfl⟩ := ih hrest'
      exact ⟨rfl, rfl, rfl⟩
    | invokeDeclared hb' hterm' | invoke hb' hterm' =>
      obtain rfl := Except.ok.inj (hb.symm.trans hb')
      rw [hterm'] at hcalls
      cases hcalls
    | result hb' htick' hterm' =>
      obtain rfl := Except.ok.inj (hb.symm.trans hb')
      obtain ⟨-, rfl⟩ := EStateM.Result.ok.inj (htick.symm.trans htick')
      cases hterm.symm.trans hterm'
  | invokeDeclared hb hterm htick htarget hf hentry hcall _ ih =>
    cases h' with
    | branch hb' htick' hcalls' hterm' hedge' hrest' =>
      obtain rfl := Except.ok.inj (hb.symm.trans hb')
      rw [hterm] at hcalls'
      cases hcalls'
    | invokeDeclared hb' hterm' htick' htarget' hf' hentry' hcall' hrest' =>
      obtain rfl := Except.ok.inj (hb.symm.trans hb')
      obtain ⟨rfl, rfl, rfl, -⟩ := Terminator.invoke.inj (hterm.symm.trans hterm')
      obtain ⟨rfl, rfl, rfl, rfl⟩ := same_called htick htick' htarget htarget' hf hf'
      obtain ⟨rfl, rfl⟩ := EStateM.Result.ok.inj (hcall.symm.trans hcall')
      obtain ⟨rfl, rfl, rfl⟩ := ih hrest'
      exact ⟨rfl, rfl, rfl⟩
    | invoke hb' hterm' htick' htarget' hf' hentry' hcall' hrest' =>
      obtain rfl := Except.ok.inj (hb.symm.trans hb')
      obtain ⟨rfl, rfl, rfl, -⟩ := Terminator.invoke.inj (hterm.symm.trans hterm')
      obtain ⟨rfl, rfl, rfl, rfl⟩ := same_called htick htick' htarget htarget' hf hf'
      cases hentry.symm.trans hentry'
    | result hb' htick' hterm' =>
      obtain rfl := Except.ok.inj (hb.symm.trans hb')
      have hcalls := calls_of_result hterm'
      rw [hterm] at hcalls
      cases hcalls
  | invoke hb hterm htick htarget hf hentry _ _ ihcall ih =>
    cases h' with
    | branch hb' htick' hcalls' hterm' hedge' hrest' =>
      obtain rfl := Except.ok.inj (hb.symm.trans hb')
      rw [hterm] at hcalls'
      cases hcalls'
    | invokeDeclared hb' hterm' htick' htarget' hf' hentry' hcall' hrest' =>
      obtain rfl := Except.ok.inj (hb.symm.trans hb')
      obtain ⟨rfl, rfl, rfl, -⟩ := Terminator.invoke.inj (hterm.symm.trans hterm')
      obtain ⟨rfl, rfl, rfl, rfl⟩ := same_called htick htick' htarget htarget' hf hf'
      cases hentry.symm.trans hentry'
    | invoke hb' hterm' htick' htarget' hf' hentry' hcall' hrest' =>
      obtain rfl := Except.ok.inj (hb.symm.trans hb')
      obtain ⟨rfl, rfl, rfl, -⟩ := Terminator.invoke.inj (hterm.symm.trans hterm')
      obtain ⟨rfl, rfl, rfl, rfl⟩ := same_called htick htick' htarget htarget' hf hf'
      obtain rfl := Option.some.inj (hentry.symm.trans hentry')
      obtain ⟨rfl, rfl, rfl⟩ := ihcall hcall'
      obtain ⟨rfl, rfl, rfl⟩ := ih hrest'
      exact ⟨rfl, rfl, rfl⟩
    | result hb' htick' hterm' =>
      obtain rfl := Except.ok.inj (hb.symm.trans hb')
      have hcalls := calls_of_result hterm'
      rw [hterm] at hcalls
      cases hcalls
  | result hb htick hterm =>
    cases h' with
    | branch hb' htick' hcalls' hterm' hedge' hrest' =>
      obtain rfl := Except.ok.inj (hb.symm.trans hb')
      obtain ⟨-, rfl⟩ := EStateM.Result.ok.inj (htick.symm.trans htick')
      cases hterm.symm.trans hterm'
    | invokeDeclared hb' hterm' | invoke hb' hterm' =>
      obtain rfl := Except.ok.inj (hb.symm.trans hb')
      have hcalls := calls_of_result hterm
      rw [hterm'] at hcalls
      cases hcalls
    | result hb' htick' hterm' =>
      obtain rfl := Except.ok.inj (hb.symm.trans hb')
      obtain ⟨-, rfl⟩ := EStateM.Result.ok.inj (htick.symm.trans htick')
      obtain ⟨hvalue, rfl⟩ := EStateM.Result.ok.inj (hterm.symm.trans hterm')
      exact ⟨rfl, Outcome.result.inj hvalue, rfl⟩

/-- A call by name passes no other sites. -/
theorem CallPasses.unique {name : String} {args : List UInt64} {sites sites' : List ProbeSite}
    {v v' : UInt64} (h : w.CallPasses name args s sites v s₁)
    (h' : w.CallPasses name args s sites' v' s₂) : sites = sites' := by
  cases h with
  | body hid hf hentry hpasses =>
    cases h' with
    | body hid' hf' hentry' hpasses' =>
      obtain rfl := Option.some.inj (hid.symm.trans hid')
      obtain rfl := Except.ok.inj (hf.symm.trans hf')
      obtain rfl := Option.some.inj (hentry.symm.trans hentry')
      rw [(hpasses.unique hpasses').1]
    | declared hid' hf' hentry' hcall' =>
      obtain rfl := Option.some.inj (hid.symm.trans hid')
      obtain rfl := Except.ok.inj (hf.symm.trans hf')
      cases hentry.symm.trans hentry'
  | declared hid hf hentry hcall =>
    cases h' with
    | body hid' hf' hentry' hpasses' =>
      obtain rfl := Option.some.inj (hid.symm.trans hid')
      obtain rfl := Except.ok.inj (hf.symm.trans hf')
      cases hentry.symm.trans hentry'
    | declared => rfl

/-- A call by name that returns passes just one list of sites. -/
theorem existsUnique_callPasses {name : String} {args : List UInt64} {v : UInt64}
    (h : w.call name args s = .ok v s') : ∃! sites, w.CallPasses name args s sites v s' := by
  obtain ⟨sites, hsites⟩ := exists_callPasses h
  exact ⟨sites, hsites, fun _ hother => hother.unique hsites⟩

/-! ## What holds throughout a run -/

/-- Something holds of a moment and of all that come later in its run. -/
def Throughout (w : World) (allowed : Moment → Prop) (moment : Moment) : Prop :=
  ∀ later, Relation.ReflTransGen w.Next moment later → allowed later

theorem Throughout.here {allowed : Moment → Prop} {moment : Moment}
    (h : w.Throughout allowed moment) : allowed moment :=
  h moment .refl

theorem Throughout.next {allowed : Moment → Prop} {moment moment' : Moment}
    (h : w.Throughout allowed moment) (hnext : w.Next moment moment') : w.Throughout allowed moment' :=
  fun later hlater => h later (.head hnext hlater)

section

variable {id callId : FuncId} {n : Nat} {es : List BlockId} {block : BlockId} {b : Block} {i : InstId}
  {insts : List InstId} {kind : InstKind} {callee : Callee} {args : List Value} {ret : Ty}
  {values : List UInt64} {f : Function} {value : UInt64} {entry normal unwind : BlockId}
  {inner : List ProbeSite}

theorem next_execute (htick : Exec.tick s = .ok () s₁) (hkind : a.function.kind i = .ok kind)
    (hcall : kind.isCall = false) (hstep : w.step w.alone a frame i s₁ = .ok value s₂) :
    w.Next ⟨id, a, n + 1, es, .within block (i :: insts) frame, s⟩
      ⟨id, a, n + 1, es, .within block insts (frame.insert i value), s₂⟩ :=
  .execute htick ((congrFun (step_of_not_call hkind hcall (w.enter (w.run n))) s₁).trans hstep)

theorem next_declared (htick : Exec.tick s = .ok () s₁)
    (hkind : a.function.kind i = .ok (.call callee args ret))
    (htarget : w.target a frame callee args s₁ = .ok (callId, values) s₂)
    (hf : w.module.function callId = .ok f) (hentry : f.entryBlock? = none)
    (hcall : w.callDeclared f values s₂ = .ok value s₃) :
    w.Next ⟨id, a, n + 1, es, .within block (i :: insts) frame, s⟩
      ⟨id, a, n + 1, es, .within block insts (frame.insert i value), s₃⟩ :=
  .execute htick ((congrFun (step_call hkind) s₁).trans ((performCall_of_target htarget).trans
    ((congrFun (enter_of_bodiless hf hentry) s₂).trans hcall)))

/-- The moment after a call. -/
theorem next_called (htick : Exec.tick s = .ok () s₁)
    (hkind : a.function.kind i = .ok (.call callee args ret))
    (htarget : w.target a frame callee args s₁ = .ok (callId, values) s₂)
    (hf : w.module.function callId = .ok f) (hentry : f.entryBlock? = some entry)
    (hcall : w.Passes (.start callId f entry values n s₂) inner value s₃) :
    w.Next ⟨id, a, n + 1, es, .within block (i :: insts) frame, s⟩
      ⟨id, a, n + 1, es, .within block insts (frame.insert i value), s₃⟩ :=
  .execute htick ((congrFun (step_call hkind) s₁).trans ((performCall_of_target htarget).trans
    ((congrFun (enter_of_body hf hentry) s₂).trans hcall.returns)))

theorem next_branch {c : Cursor} (hb : a.function.block block = .ok b)
    (htick : Exec.tick s = .ok () s₁) (hcalls : b.term.calls = false)
    (hterm : w.runTerminator w.alone a frame block b.term s₁ = .ok (.jump c) s₂) :
    w.Next ⟨id, a, n + 1, es, .within block [] frame, s⟩ ⟨id, a, n, es, .arriving c, s₂⟩ :=
  .jump hb htick ((congrFun (runTerminator_of_not_calls hcalls (w.enter (w.run n))) s₁).trans hterm)

theorem next_invokeDeclared (hb : a.function.block block = .ok b)
    (hterm : b.term = .invoke callee args normal unwind) (htick : Exec.tick s = .ok () s₁)
    (htarget : w.target a frame callee args s₁ = .ok (callId, values) s₂)
    (hf : w.module.function callId = .ok f) (hentry : f.entryBlock? = none)
    (hcall : w.callDeclared f values s₂ = .ok value s₃) :
    w.Next ⟨id, a, n + 1, es, .within block [] frame, s⟩
      ⟨id, a, n, es, .arriving ⟨frame, some block, normal⟩, s₃⟩ := by
  refine .jump hb htick ?_
  rw [hterm, runTerminator_invoke]
  exact Exec.bind_eq_ok.mpr ⟨value, s₃, (performCall_of_target htarget).trans
    ((congrFun (enter_of_bodiless hf hentry) s₂).trans hcall), rfl⟩

/-- The moment after an invocation. -/
theorem next_invoked (hb : a.function.block block = .ok b)
    (hterm : b.term = .invoke callee args normal unwind) (htick : Exec.tick s = .ok () s₁)
    (htarget : w.target a frame callee args s₁ = .ok (callId, values) s₂)
    (hf : w.module.function callId = .ok f) (hentry : f.entryBlock? = some entry)
    (hcall : w.Passes (.start callId f entry values n s₂) inner value s₃) :
    w.Next ⟨id, a, n + 1, es, .within block [] frame, s⟩
      ⟨id, a, n, es, .arriving ⟨frame, some block, normal⟩, s₃⟩ := by
  refine .jump hb htick ?_
  rw [hterm, runTerminator_invoke]
  exact Exec.bind_eq_ok.mpr ⟨value, s₃, (performCall_of_target htarget).trans
    ((congrFun (enter_of_body hf hentry) s₂).trans hcall.returns), rfl⟩

end

end World

/-! ## What a run adds up -/

/-- What is listed in a block after the phis. -/
def Function.work (f : Function) (b : BlockId) : List InstId :=
  match f.block b, f.phis b with
  | .ok blk, .ok phis => blk.insts.drop phis.length
  | _, _ => []

theorem Function.work_eq {f : Function} {b : BlockId} {blk : Block} {phis : List InstId}
    (hblk : f.block b = .ok blk) (hphis : f.phis b = .ok phis) :
    f.work b = blk.insts.drop phis.length := by
  rw [work, hblk, hphis]

/-- What the activation will add to an account in the block where it is, by itself. -/
def Moment.due {α : Type} (own : FuncId → InstId → List α) (moment : Moment) : List α :=
  match moment.place with
  | .arriving c => (moment.activation.function.work c.block).flatMap (own moment.id)
  | .within _ insts _ => insts.flatMap (own moment.id)

section

variable {α : Type} {own : FuncId → InstId → List α} {id : FuncId} {a : Activation} {n : Nat}
  {es : List BlockId} {s : Store}

theorem Moment.due_arriving {c : Cursor} : Moment.due own ⟨id, a, n, es, .arriving c, s⟩ =
    (a.function.work c.block).flatMap (own id) :=
  rfl

theorem Moment.due_within {block : BlockId} {insts : List InstId} {frame : Frame} :
    Moment.due own ⟨id, a, n, es, .within block insts frame, s⟩ = insts.flatMap (own id) :=
  rfl

theorem Moment.due_start {f : Function} {entry : BlockId} {args : List UInt64} :
    (Moment.start id f entry args n s).due own = (f.work entry).flatMap (own id) :=
  rfl

end

namespace World

/-- Instructions add to an account (`own`) such that each block adds what sites are marked with that
lead to it. What is known at the moments of a run (`facts`) makes sure that they do. -/
structure Accounts {α : Type} (w : World) (allowed facts : Moment → Prop)
    (own : FuncId → InstId → List α) (mark : ProbeSite → List α)
    (tally : List α → Store → Store → Prop) : Prop where
  append : ∀ {xs ys s s₁ s₂}, tally xs s s₁ → tally ys s₁ s₂ → tally (xs ++ ys) s s₂
  entry : ∀ {id f entry}, w.module.function id = .ok f → f.entryBlock? = some entry →
    (f.work entry).flatMap (own id) = mark (.entry id)
  edge : ∀ {id a n es block frame s b k target},
    allowed ⟨id, a, n + 1, es, .within block [] frame, s⟩ → a.function.block block = .ok b →
      b.term.successors[k]? = some target →
        (a.function.work target).flatMap (own id) = mark (.edge id block k)
  enter : ∀ {id a n es c s s₁ b phis values}, allowed ⟨id, a, n + 1, es, .arriving c, s⟩ →
    facts ⟨id, a, n + 1, es, .arriving c, s⟩ → a.function.block c.block = .ok b →
      a.function.phis c.block = .ok phis →
        w.enteredPhis a c.frame c.source phis s = .ok values s₁ → tally [] s s₁ ∧
          facts ⟨id, a, n + 1, c.entering es,
            .within c.block (b.insts.drop phis.length) (setAll c.frame values), s₁⟩
  execute : ∀ {id a n es block i insts frame s s₁ s₂ kind value},
    allowed ⟨id, a, n + 1, es, .within block (i :: insts) frame, s⟩ →
      facts ⟨id, a, n + 1, es, .within block (i :: insts) frame, s⟩ → Exec.tick s = .ok () s₁ →
        a.function.kind i = .ok kind → kind.isCall = false →
          w.step w.alone a frame i s₁ = .ok value s₂ → tally (own id i) s s₂ ∧
            facts ⟨id, a, n + 1, es, .within block insts (frame.insert i value), s₂⟩
  declared : ∀ {id callId a n es block i insts frame s s₁ s₂ s₃ callee args ret values f value},
    allowed ⟨id, a, n + 1, es, .within block (i :: insts) frame, s⟩ →
      facts ⟨id, a, n + 1, es, .within block (i :: insts) frame, s⟩ → Exec.tick s = .ok () s₁ →
        a.function.kind i = .ok (.call callee args ret) →
          w.target a frame callee args s₁ = .ok (callId, values) s₂ →
            w.module.function callId = .ok f → f.entryBlock? = none →
              w.callDeclared f values s₂ = .ok value s₃ → tally (own id i) s s₃ ∧
                facts ⟨id, a, n + 1, es, .within block insts (frame.insert i value), s₃⟩
  /-- Nothing is due in the block any more when a function with a body is called. What is known then
  is known again when it returns. -/
  call : ∀ {id callId a n es block entry i insts frame s s₁ s₂ callee args ret values f},
    allowed ⟨id, a, n + 1, es, .within block (i :: insts) frame, s⟩ →
      facts ⟨id, a, n + 1, es, .within block (i :: insts) frame, s⟩ → Exec.tick s = .ok () s₁ →
        a.function.kind i = .ok (.call callee args ret) →
          w.target a frame callee args s₁ = .ok (callId, values) s₂ →
            w.module.function callId = .ok f → f.entryBlock? = some entry →
              (i :: insts).flatMap (own id) = [] ∧ tally [] s s₂ ∧
                facts (.start callId f entry values n s₂) ∧
                ∀ xs value s₃, tally xs s₂ s₃ →
                  facts ⟨id, a, n + 1, es, .within block insts (frame.insert i value), s₃⟩
  branch : ∀ {id a n es block b frame s s₁ s₂ c},
    allowed ⟨id, a, n + 1, es, .within block [] frame, s⟩ →
      facts ⟨id, a, n + 1, es, .within block [] frame, s⟩ → a.function.block block = .ok b →
        Exec.tick s = .ok () s₁ → b.term.calls = false →
          w.runTerminator w.alone a frame block b.term s₁ = .ok (.jump c) s₂ → tally [] s s₂ ∧
            facts ⟨id, a, n, es, .arriving c, s₂⟩
  invokeDeclared : ∀ {id callId a n es block normal unwind b frame s s₁ s₂ s₃ callee args values f
      value}, allowed ⟨id, a, n + 1, es, .within block [] frame, s⟩ →
    facts ⟨id, a, n + 1, es, .within block [] frame, s⟩ → a.function.block block = .ok b →
      b.term = .invoke callee args normal unwind → Exec.tick s = .ok () s₁ →
        w.target a frame callee args s₁ = .ok (callId, values) s₂ →
          w.module.function callId = .ok f → f.entryBlock? = none →
            w.callDeclared f values s₂ = .ok value s₃ → tally [] s s₃ ∧
              facts ⟨id, a, n, es, .arriving ⟨frame, some block, normal⟩, s₃⟩
  invoke : ∀ {id callId a n es block entry normal unwind b frame s s₁ s₂ callee args values f},
    allowed ⟨id, a, n + 1, es, .within block [] frame, s⟩ →
      facts ⟨id, a, n + 1, es, .within block [] frame, s⟩ → a.function.block block = .ok b →
        b.term = .invoke callee args normal unwind → Exec.tick s = .ok () s₁ →
          w.target a frame callee args s₁ = .ok (callId, values) s₂ →
            w.module.function callId = .ok f → f.entryBlock? = some entry →
              tally [] s s₂ ∧ facts (.start callId f entry values n s₂) ∧
                ∀ xs s₃, tally xs s₂ s₃ →
                  facts ⟨id, a, n, es, .arriving ⟨frame, some block, normal⟩, s₃⟩
  result : ∀ {id a n es block b frame s s₁ s₂ v},
    allowed ⟨id, a, n + 1, es, .within block [] frame, s⟩ →
      facts ⟨id, a, n + 1, es, .within block [] frame, s⟩ → a.function.block block = .ok b →
        Exec.tick s = .ok () s₁ →
          w.runTerminator w.alone a frame block b.term s₁ = .ok (.result v) s₂ → tally [] s s₂

namespace Accounts

variable {α : Type} {w : World} {allowed facts : Moment → Prop} {own : FuncId → InstId → List α}
  {mark : ProbeSite → List α} {tally : List α → Store → Store → Prop}
  (h : w.Accounts allowed facts own mark tally)
include h

theorem edge_normal {id : FuncId} {a : Activation} {n : Nat} {es : List BlockId}
    {block normal unwind : BlockId} {frame : Frame} {s : Store} {b : Block} {callee : Callee}
    {args : List Value} (hallowed : allowed ⟨id, a, n + 1, es, .within block [] frame, s⟩)
    (hb : a.function.block block = .ok b) (hterm : b.term = .invoke callee args normal unwind) :
    (a.function.work normal).flatMap (own id) = mark (.edge id block 0) := by
  have hk : b.term.successors[0]? = some normal := by
    rw [hterm]
    rfl
  exact h.edge hallowed hb hk

/-- A run adds what is still due in the block where it is, and then what the sites that it passes
are marked with. -/
theorem adds {moment : Moment} {sites : List ProbeSite} {v : UInt64} {s' : Store}
    (hpasses : w.Passes moment sites v s') (hallowed : w.Throughout allowed moment)
    (hfacts : facts moment) : tally (moment.due own ++ sites.flatMap mark) moment.store s' := by
  induction hpasses with
  | enter hb hphis hvalues _ ih =>
    obtain ⟨htally, hfacts⟩ := h.enter hallowed.here hfacts hb hphis hvalues
    have hall := h.append htally (ih (hallowed.next (.enter hb hphis hvalues)) hfacts)
    rwa [List.nil_append, Moment.due_within, ← Function.work_eq hb hphis] at hall
  | execute htick hkind hcall hstep _ ih =>
    obtain ⟨htally, hfacts⟩ := h.execute hallowed.here hfacts htick hkind hcall hstep
    have hall := h.append htally (ih (hallowed.next (next_execute htick hkind hcall hstep)) hfacts)
    rwa [← List.append_assoc] at hall
  | declared htick hkind htarget hf hentry hcall _ ih =>
    obtain ⟨htally, hfacts⟩ := h.declared hallowed.here hfacts htick hkind htarget hf hentry hcall
    have hall := h.append htally
      (ih (hallowed.next (next_declared htick hkind htarget hf hentry hcall)) hfacts)
    rwa [← List.append_assoc] at hall
  | call htick hkind htarget hf hentry hcall _ ihcall ih =>
    obtain ⟨hdue, htally, hstart, hafter⟩ :=
      h.call hallowed.here hfacts htick hkind htarget hf hentry
    have hinner := ihcall (hallowed.next (.call hkind htick htarget hf hentry)) hstart
    have hrest := ih (hallowed.next (next_called htick hkind htarget hf hentry hcall))
      (hafter _ _ _ hinner)
    have hall := h.append htally (h.append hinner hrest)
    rw [List.flatMap_cons, List.append_eq_nil_iff] at hdue
    rw [Moment.due_within, hdue.2, Moment.due_start, h.entry hf hentry] at hall
    rw [Moment.due_within, List.flatMap_cons, hdue.1, hdue.2]
    simpa only [List.nil_append, List.flatMap_cons, List.flatMap_append,
      List.append_assoc] using hall
  | branch hb htick hcalls hterm hedge _ ih =>
    obtain ⟨htally, hfacts⟩ := h.branch hallowed.here hfacts hb htick hcalls hterm
    obtain ⟨k, hedge', hk, -⟩ := edgeTaken_of_jump hcalls hterm
    obtain ⟨rfl, -⟩ := EStateM.Result.ok.inj (hedge.symm.trans hedge')
    have hall := h.append htally (ih (hallowed.next (next_branch hb htick hcalls hterm)) hfacts)
    rwa [List.nil_append, Moment.due_arriving, h.edge hallowed.here hb hk,
      ← List.flatMap_cons] at hall
  | invokeDeclared hb hterm htick htarget hf hentry hcall _ ih =>
    obtain ⟨htally, hfacts⟩ :=
      h.invokeDeclared hallowed.here hfacts hb hterm htick htarget hf hentry hcall
    have hall := h.append htally
      (ih (hallowed.next (next_invokeDeclared hb hterm htick htarget hf hentry hcall)) hfacts)
    rwa [List.nil_append, Moment.due_arriving, h.edge_normal hallowed.here hb hterm,
      ← List.flatMap_cons] at hall
  | invoke hb hterm htick htarget hf hentry hcall _ ihcall ih =>
    obtain ⟨htally, hstart, hafter⟩ :=
      h.invoke hallowed.here hfacts hb hterm htick htarget hf hentry
    have hinner := ihcall (hallowed.next (.invoke hb hterm htick htarget hf hentry)) hstart
    have hrest := ih (hallowed.next (next_invoked hb hterm htick htarget hf hentry hcall))
      (hafter _ _ hinner)
    have hall := h.append htally (h.append hinner hrest)
    rw [Moment.due_start, h.entry hf hentry, Moment.due_arriving,
      h.edge_normal hallowed.here hb hterm] at hall
    rw [Moment.due_within]
    simpa only [List.flatMap_nil, List.nil_append, List.flatMap_cons, List.flatMap_append,
      List.append_assoc] using hall
  | result hb htick hterm => exact h.result hallowed.here hfacts hb htick hterm

/-- So does a call by name. -/
theorem adds_call {name : String} {args : List UInt64} {s s' : Store} {sites : List ProbeSite}
    {v : UInt64} (hpasses : w.CallPasses name args s sites v s')
    (hallowed : ∀ moment, w.Occurs name args s moment → allowed moment)
    (hfacts : ∀ id f entry n, facts (.start id f entry args n s))
    (hdeclared : ∀ id f, w.module.findFunction? name = some id → w.module.function id = .ok f →
      f.entryBlock? = none → w.callDeclared f args s = .ok v s' → tally [] s s') :
    tally (sites.flatMap mark) s s' := by
  cases hpasses with
  | body hid hf hentry hpasses =>
    have hall := h.adds hpasses
      (fun later hlater => hallowed later ⟨_, _, _, hid, hf, hentry, hlater⟩) (hfacts _ _ _ _)
    rwa [Moment.due_start, h.entry hf hentry, ← List.flatMap_cons] at hall
  | declared hid hf hentry hcall => exact hdeclared _ _ hid hf hentry hcall

end Accounts

end World

end EdgeProbe
