import EdgeProbe.Proofs.Machine.Simulation

/-!
# Going from one place of a function to another

`World.Leads` says that from some place a run goes on as from another one, without any trace in
the store. It holds along instructions that compute something and along jumps, and is put together
from these.
-/

namespace EdgeProbe

namespace World

/-- From one place and frame the run goes on as from another one. -/
def Leads (w : World) (g : Guard) (id : FuncId) (a : Activation) (s : Store) (start : Rest)
    (frame : Frame) (stop : Rest) (frame' : Frame) : Prop :=
  ∀ r, Exec.Yields (fun n => w.restIf g n id a stop.block stop.term stop.insts frame') s r →
    Exec.Yields (fun n => w.restIf g n id a start.block start.term start.insts frame) s r

/-- From this place and frame the run is stopped at once. -/
def Fails (w : World) (g : Guard) (id : FuncId) (a : Activation) (s : Store) (start : Rest)
    (frame : Frame) (cause : Stop) : Prop :=
  Exec.Yields (fun n => w.restIf g n id a start.block start.term start.insts frame) s
    (.error cause s)

/-- From one place the run comes to another one, with a frame that is as it should be up to some
number. -/
def Arrives (w : World) (g : Guard) (id : FuncId) (a : Activation) (s : Store) (size : Nat)
    (wanted : Frame) (start : Rest) (frame : Frame) (stop : Rest) : Prop :=
  ∃ frame', Agree size wanted frame' ∧ w.Leads g id a s start frame stop frame'

/-- On the way from one place to another one a value is computed, and nothing is changed that comes
before some number. -/
def Computes (w : World) (g : Guard) (id : FuncId) (a : Activation) (s : Store) (start : Rest)
    (frame : Frame) (stop : Rest) (size : Nat) (i : InstId) (x : UInt64) : Prop :=
  ∃ frame', w.Leads g id a s start frame stop frame' ∧ Agree size frame frame' ∧
    w.eval a frame' (.inst i) = pure x

variable {w : World} {g : Guard} {id : FuncId} {a : Activation} {s : Store}
  {start middle stop : Rest} {frame frame₁ frame₂ : Frame} {block : BlockId} {term : Terminator}
  {i : InstId} {insts : List InstId} {kind : InstKind}

theorem Leads.refl : w.Leads g id a s start frame start frame :=
  fun _ h => h

theorem Leads.trans (h : w.Leads g id a s start frame middle frame₁)
    (h' : w.Leads g id a s middle frame₁ stop frame₂) : w.Leads g id a s start frame stop frame₂ :=
  fun r hr => h r (h' r hr)

theorem Leads.fails {cause : Stop} (h : w.Leads g id a s start frame middle frame₁)
    (h' : w.Fails g id a s middle frame₁ cause) : w.Fails g id a s start frame cause :=
  h _ h'

theorem Arrives.after {size : Nat} {wanted : Frame} (h : w.Leads g id a s start frame middle frame₁)
    (h' : w.Arrives g id a s size wanted middle frame₁ stop) :
    w.Arrives g id a s size wanted start frame stop := by
  obtain ⟨frame', hagree, hleads⟩ := h'
  exact ⟨frame', hagree, h.trans hleads⟩

theorem yields_require {holds : Memory → Prop} (h : holds s.memory) :
    Exec.Yields (fun _ => Exec.require holds) s (.ok () s) := by
  refine ⟨0, 0, fun _ _ left => ?_⟩
  rw [Nat.zero_add]
  exact Exec.require_of_holds h

/-- No call is forbidden where there is none. -/
theorem permits_of_not_call (hkind : a.function.kind i = .ok kind) (hcall : kind.isCall = false) :
    w.Permits g id a frame i s.memory := by
  intro callee args ret values hcallee _
  obtain rfl := Except.ok.inj (hkind.symm.trans hcallee)
  cases hcall

/-- An instruction that leaves the store alone leads to the next one. -/
theorem leads_step {value : UInt64} (hkind : a.function.kind i = .ok kind)
    (hcall : kind.isCall = false)
    (hstep : ∀ caller left, w.step caller a frame i (s.withSteps left) =
      .ok value (s.withSteps left)) :
    w.Leads g id a s ⟨block, term, i :: insts⟩ frame ⟨block, term, insts⟩
      (frame.insert i value) := by
  intro r hr
  simp only [restIf_cons]
  have hvalue : Exec.Yields (fun n => w.step (w.enterIf (w.runIf g n)) a frame i) s
      (.ok value s) := by
    refine ⟨0, 0, fun n _ left => ?_⟩
    rw [Nat.zero_add]
    exact hstep _ left
  exact (Exec.yields_tick s).bind
    ((yields_require (permits_of_not_call hkind hcall)).bind (hvalue.bind hr))

/-- An instruction that is stopped stops the run. -/
theorem fails_step {cause : Stop} (hkind : a.function.kind i = .ok kind)
    (hcall : kind.isCall = false) (hstep : ∀ caller, w.step caller a frame i = throw cause) :
    w.Fails g id a s ⟨block, term, i :: insts⟩ frame cause := by
  unfold Fails
  simp only [restIf_cons, hstep]
  exact (Exec.yields_tick s).bind
    ((yields_require (permits_of_not_call hkind hcall)).bind (Exec.yields_throw cause s).bind_error)

/-- A jump leads into the block that it goes to, past the phis. -/
theorem leads_jump {target : BlockId} {blk : Block} {phis : List InstId}
    {entered : List (InstId × UInt64)}
    (hjump : ∀ caller, w.runTerminator caller a frame block term =
      pure (.jump ⟨frame, some block, target⟩))
    (hblk : a.function.block target = .ok blk) (hphis : a.function.phis target = .ok phis)
    (hentered : w.phiValues a frame block phis = pure entered) :
    w.Leads g id a s ⟨block, term, []⟩ frame ⟨target, blk.term, blk.insts.drop phis.length⟩
      (setAll frame entered) := by
  intro r hr
  simp only [restIf_nil, hjump, pure_bind]
  refine (Exec.yields_tick s).bind (.of_succ ?_)
  simp only [runIf_succ, hblk, hphis, Exec.ofChecked_ok, pure_bind, enteredPhis, hentered]
  exact hr

/-- A jump into a block of which a phi has no value stops the run. -/
theorem fails_jump {target : BlockId} {blk : Block} {phis : List InstId} {cause : Stop}
    (hjump : ∀ caller, w.runTerminator caller a frame block term =
      pure (.jump ⟨frame, some block, target⟩))
    (hblk : a.function.block target = .ok blk) (hphis : a.function.phis target = .ok phis)
    (hentered : w.phiValues a frame block phis = throw cause) :
    w.Fails g id a s ⟨block, term, []⟩ frame cause := by
  unfold Fails
  simp only [restIf_nil, hjump, pure_bind]
  refine (Exec.yields_tick s).bind (.of_succ ?_)
  simp only [runIf_succ, hblk, hphis, Exec.ofChecked_ok, pure_bind, enteredPhis, hentered]
  exact (Exec.yields_throw cause s).bind_error

/-- A terminator that is stopped stops the run. -/
theorem fails_terminator {cause : Stop}
    (hterm : ∀ caller, w.runTerminator caller a frame block term = throw cause) :
    w.Fails g id a s ⟨block, term, []⟩ frame cause := by
  unfold Fails
  simp only [restIf_nil, hterm]
  exact (Exec.yields_tick s).bind (Exec.yields_throw cause s).bind_error

/-! ## Operands -/

theorem eval_cases (value : Value) :
    (∃ x, w.eval a frame value = pure x) ∨ ∃ cause, w.eval a frame value = throw cause := by
  cases value with
  | inst j =>
    rw [eval]
    cases frame[j]? with
    | some x => exact .inl ⟨x, rfl⟩
    | none => exact .inr ⟨_, rfl⟩
  | arg index => exact .inl ⟨_, rfl⟩
  | const c => cases c <;> exact .inl ⟨_, rfl⟩
  | global j =>
    rw [eval]
    cases w.globalAddr j with
    | ok x => exact .inl ⟨x, rfl⟩
    | error fault => exact .inr ⟨_, rfl⟩
  | func j => exact .inl ⟨_, rfl⟩

theorem eval_insert_self (value : UInt64) :
    w.eval a (frame.insert i value) (.inst i) = pure value := by
  simp [eval]

/-- What is set from some number on does not matter to an operand from before. -/
theorem eval_of_agree {size : Nat} (h : Agree size frame frame₁) {value : Value}
    (hvalue : value.Below size) : w.eval a frame₁ value = w.eval a frame value := by
  cases value with
  | inst j => rw [eval, eval, h j hvalue]
  | const c => cases c <;> rfl
  | _ => rfl

/-- An instruction that finds a value and leaves the store alone. -/
theorem computes_of_step {value : UInt64} (hkind : a.function.kind i = .ok kind)
    (hcall : kind.isCall = false) (hstep : ∀ caller left, w.step caller a frame i (s.withSteps left) =
      .ok value (s.withSteps left)) :
    w.Computes g id a s ⟨block, term, i :: insts⟩ frame ⟨block, term, insts⟩ i.index i value :=
  ⟨_, leads_step hkind hcall hstep, (Agree.refl _ frame).insert_above le_rfl _,
    eval_insert_self value⟩

/-- An instruction that computes a value from others. -/
theorem computes_pure {value : UInt64} (hkind : a.function.kind i = .ok kind)
    (hcall : kind.isCall = false) (hstep : ∀ caller, w.step caller a frame i = pure value) :
    w.Computes g id a s ⟨block, term, i :: insts⟩ frame ⟨block, term, insts⟩ i.index i value := by
  refine computes_of_step hkind hcall fun caller _ => ?_
  rw [hstep caller]
  rfl

section Kinds

variable {caller : Caller} {x y : UInt64}

theorem widthOf_eq {value : Value} {width : Nat}
    (h : a.function.intWidth? value = .ok (some width)) : widthOf a value = pure width := by
  rw [widthOf, h]
  rfl

theorem step_icmp {pred : Predicate} {lhs rhs : Value} {width : Nat}
    (hkind : a.function.kind i = .ok (.icmp pred lhs rhs))
    (hwidth : a.function.intWidth? lhs = .ok (some width)) :
    w.step caller a frame i = (do
      let l ← w.eval a frame lhs
      let r ← w.eval a frame rhs
      return if pred.evaluate width l r then 1 else 0) := by
  simp only [step, hkind, Exec.ofChecked_ok, pure_bind, widthOf_eq hwidth]

theorem step_select {cond ifTrue ifFalse : Value}
    (hkind : a.function.kind i = .ok (.select cond ifTrue ifFalse)) :
    w.step caller a frame i = (do
      let bit ← w.eval a frame cond
      w.eval a frame (if bit &&& 1 == 1 then ifTrue else ifFalse)) := by
  simp only [step, hkind, Exec.ofChecked_ok, pure_bind]
  refine congrArg _ (funext fun bit => ?_)
  split <;> rfl

theorem step_binary {op : BinOp} {lhs rhs : Value} {width : Nat}
    (hkind : a.function.kind i = .ok (.binary op lhs rhs))
    (hwidth : a.function.intWidth? (.inst i) = .ok (some width)) :
    w.step caller a frame i = (do
      let l ← w.eval a frame lhs
      let r ← w.eval a frame rhs
      return op.evaluate width l r) := by
  simp only [step, hkind, Exec.ofChecked_ok, pure_bind, widthOf_eq hwidth]

theorem step_trunc {value : Value} {width source : Nat}
    (hkind : a.function.kind i = .ok (.cast .trunc value width))
    (hwidth : a.function.intWidth? value = .ok (some source)) :
    w.step caller a frame i = (do
      let bits ← w.eval a frame value
      return mask width (mask source bits)) := by
  simp only [step, hkind, Exec.ofChecked_ok, pure_bind, widthOf_eq hwidth]

theorem computes_icmp {pred : Predicate} {lhs rhs : Value} {width : Nat}
    (hkind : a.function.kind i = .ok (.icmp pred lhs rhs))
    (hwidth : a.function.intWidth? lhs = .ok (some width)) (hx : w.eval a frame lhs = pure x)
    (hy : w.eval a frame rhs = pure y) :
    w.Computes g id a s ⟨block, term, i :: insts⟩ frame ⟨block, term, insts⟩ i.index i
      (if pred.evaluate width x y then 1 else 0) :=
  computes_pure hkind rfl fun _ => by rw [step_icmp hkind hwidth, hx, hy]; rfl

theorem computes_binary {op : BinOp} {lhs rhs : Value} {width : Nat}
    (hkind : a.function.kind i = .ok (.binary op lhs rhs))
    (hwidth : a.function.intWidth? (.inst i) = .ok (some width)) (hx : w.eval a frame lhs = pure x)
    (hy : w.eval a frame rhs = pure y) :
    w.Computes g id a s ⟨block, term, i :: insts⟩ frame ⟨block, term, insts⟩ i.index i
      (op.evaluate width x y) :=
  computes_pure hkind rfl fun _ => by rw [step_binary hkind hwidth, hx, hy]; rfl

theorem computes_trunc {value : Value} {width source : Nat}
    (hkind : a.function.kind i = .ok (.cast .trunc value width))
    (hwidth : a.function.intWidth? value = .ok (some source)) (hx : w.eval a frame value = pure x) :
    w.Computes g id a s ⟨block, term, i :: insts⟩ frame ⟨block, term, insts⟩ i.index i
      (mask width (mask source x)) :=
  computes_pure hkind rfl fun _ => by rw [step_trunc hkind hwidth, hx]; rfl

/-- A shift to the right and a truncation find the bits of a value from some position on. -/
theorem computes_bits {shifted bits : InstId} {value : Value} {width amount count : Nat}
    (hshifted : a.function.kind shifted =
      .ok (.binary .lshr value (.ofWord width (UInt64.ofNat amount))))
    (hbits : a.function.kind bits = .ok (.cast .trunc (.inst shifted) count))
    (hwidth : a.function.intWidth? (.inst shifted) = .ok (some width))
    (hlt : shifted.index < bits.index) (hx : w.eval a frame value = pure x) :
    w.Computes g id a s ⟨block, term, shifted :: bits :: insts⟩ frame ⟨block, term, insts⟩
      shifted.index bits (mask count (mask width
        (BinOp.lshr.evaluate width x (mask width (UInt64.ofNat amount))))) := by
  obtain ⟨frame₁, hlead₁, hagree₁, hvalue₁⟩ := computes_binary hshifted hwidth hx rfl
  obtain ⟨frame₂, hlead₂, hagree₂, hvalue₂⟩ := computes_trunc hbits hwidth hvalue₁
  exact ⟨frame₂, hlead₁.trans hlead₂, hagree₁.trans (hagree₂.mono hlt.le), hvalue₂⟩

end Kinds

/-! ## Jumps -/

theorem jump_br {caller : Caller} (target : BlockId) :
    w.runTerminator caller a frame block (.br target) = pure (.jump ⟨frame, some block, target⟩) :=
  rfl

/-- A branch looks at the last bit. -/
theorem jump_condBr_bit {caller : Caller} {cond : Value} {bit : UInt64} {onTrue onFalse : BlockId}
    (hcond : w.eval a frame cond = pure bit) :
    w.runTerminator caller a frame block (.condBr cond onTrue onFalse) =
      pure (.jump ⟨frame, some block, if bit &&& 1 == 1 then onTrue else onFalse⟩) := by
  unfold runTerminator
  simp only [hcond, pure_bind]

/-- A branch on a truth value. -/
theorem jump_condBr {caller : Caller} {cond : Value} {holds : Bool} {onTrue onFalse : BlockId}
    (hcond : w.eval a frame cond = pure (if holds then 1 else 0)) :
    w.runTerminator caller a frame block (.condBr cond onTrue onFalse) =
      pure (.jump ⟨frame, some block, if holds then onTrue else onFalse⟩) := by
  rw [jump_condBr_bit hcond]
  cases holds <;> rfl

end World

end EdgeProbe
