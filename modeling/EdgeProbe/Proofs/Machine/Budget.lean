import EdgeProbe.Proofs.Machine.Fixed
import EdgeProbe.Proofs.Machine.Passages
import EdgeProbe.Proofs.Machine.Simulation
import EdgeProbe.Proofs.Machine.Straight
import EdgeProbe.Proofs.Machine.StringOrder

/-!
# The budget of a run

`World.Executes` says how a run goes without a budget: step by step and through calls, however deep
and long, with strings compared as far as it takes. It counts the instructions that are executed,
phis apart, and the blocks that are left. A run with a budget is such a run, cut where the budget
is used up (`World.exists_executes` and `World.Executes.runTask`), and no other bound of the machine
ever ends one. Main statement: `Machine.call_within_budget`.
-/

namespace EdgeProbe

/-! ## Steps that take none of the budget -/

namespace Exec

variable {α : Type}

/-- How steps end with a result. -/
def conclude (r : Except Stop α) (s : Store) : EStateM.Result Stop Store α :=
  match r with
  | .ok a => .ok a s
  | .error cause => .error cause s

theorem exists_conclude (ends : EStateM.Result Stop Store α) : ∃ r s, ends = conclude r s := by
  cases ends with
  | ok a s => exact ⟨.ok a, s, rfl⟩
  | error cause s => exact ⟨.error cause, s, rfl⟩

theorem Heedless.conclude {x : Exec α} (hx : x.Heedless) {r : Except Stop α} {s s' : Store}
    (h : x s = conclude r s') (steps : Nat) :
    x (s.withSteps steps) = Exec.conclude r (s'.withSteps steps) := by
  rw [hx, h]
  cases r <;> rfl

theorem Fixed.heedless {x : Exec α} (h : x.Fixed) : x.Heedless := by
  obtain ⟨r, rfl⟩ := h
  exact heedless_ofStop r

theorem tick_succ (s : Store) (left : Nat) :
    tick (s.withSteps (left + 1)) = .ok () (s.withSteps left) :=
  rfl

theorem tick_zero (s : Store) :
    tick (s.withSteps 0) = .error (.trap .stepBudget) (s.withSteps 0) :=
  rfl

theorem bind_of_ok {β : Type} {x : Exec α} {k : α → Exec β} {a : α} {s s' : Store}
    (h : x s = .ok a s') : (x >>= k) s = k a s' := by
  change EStateM.bind x k s = _
  rw [EStateM.bind, h]

theorem bind_of_error {β : Type} {x : Exec α} {k : α → Exec β} {cause : Stop} {s s' : Store}
    (h : x s = .error cause s') : (x >>= k) s = .error cause s' := by
  change EStateM.bind x k s = _
  rw [EStateM.bind, h]

end Exec

namespace World

variable {w : World} {a : Activation} {frame : Frame}

/-- An instruction that calls nothing pays no heed to the steps that are left. -/
theorem heedless_step {caller : Caller} {i : InstId} {kind : InstKind}
    (hkind : a.function.kind i = .ok kind) (hcall : kind.isCall = false) :
    (w.step caller a frame i).Heedless := by
  by_cases hfixed : kind.touches = false ∧ kind.loads = false
  · exact (fixed_step hkind hfixed.1 hfixed.2).heedless
  rw [step, hkind, Exec.ofChecked_ok, pure_bind]
  cases kind with
  | load ty ptr =>
    refine (heedless_eval ptr).bind fun addr => (Exec.heedless_ask _).bind fun answer => ?_
    refine (Exec.heedless_ofStop answer).bind fun raw => ?_
    cases ty <;> exact Exec.heedless_pure _
  | store value ptr =>
    refine (Exec.heedless_ofChecked _).bind fun ty => (heedless_eval value).bind fun bits => ?_
    refine (heedless_eval ptr).bind fun addr => ?_
    exact (Exec.heedless_access _).bind fun _ => Exec.heedless_pure _
  | alloca size => exact Exec.heedless_access _
  | call callee args ret => cases hcall
  | _ => exact absurd ⟨rfl, rfl⟩ hfixed

/-- What a comparison of strings answers when a number of some width is asked for. -/
def compared (width : Nat) : Except Trap Int64 → Except Stop UInt64
  | .ok difference => .ok (mask width difference.toUInt64)
  | .error trap => .error (.trap trap)

/-- How a function without a body answers, which takes no steps. -/
inductive Answers (w : World) (f : Function) (args : List UInt64) (s : Store) :
    Except Stop UInt64 → Store → Prop
  | compared {ignoreCase limited : Bool} {answer : Except Trap Int64}
    (hbuiltin : Builtin.ofName? f.name = some (.compareStrings ignoreCase limited))
    (h : s.memory.ComparesBytes ignoreCase (if limited then some ((args[2]?).getD 0).toNat else none)
      ((args[0]?).getD 0) ((args[1]?).getD 0) answer) :
    Answers w f args s (World.compared (f.ret.intWidth?.getD 64) answer) s
  | other {r : Except Stop UInt64} {s' : Store}
    (hbuiltin : ∀ ignoreCase limited,
      Builtin.ofName? f.name ≠ some (.compareStrings ignoreCase limited))
    (h : w.callDeclared f args s = Exec.conclude r s') : Answers w f args s r s'

theorem callDeclared_of_compareStrings {f : Function} {ignoreCase limited : Bool}
    (hbuiltin : Builtin.ofName? f.name = some (.compareStrings ignoreCase limited))
    (args : List UInt64) (s : Store) :
    w.callDeclared f args s = Exec.conclude (World.compared (f.ret.intWidth?.getD 64)
      (s.memory.compareStrings ignoreCase
        (if limited then some ((args[2]?).getD 0).toNat else none)
        ((args[0]?).getD 0) ((args[1]?).getD 0))) s := by
  rw [callDeclared, hbuiltin]
  simp only [runBuiltin, Exec.ask, bind, EStateM.bind]
  cases s.memory.compareStrings ignoreCase
    (if limited then some ((args[2]?).getD 0).toNat else none) ((args[0]?).getD 0)
    ((args[1]?).getD 0) <;> rfl

theorem Answers.callDeclared {f : Function} {args : List UInt64} {s s' : Store}
    {r : Except Stop UInt64} (h : w.Answers f args s r s') :
    w.callDeclared f args s = Exec.conclude r s' := by
  cases h with
  | compared hbuiltin h =>
    rw [callDeclared_of_compareStrings hbuiltin,
      h.unique (Memory.comparesBytes_compareStrings _ _ _ _ _)]
  | other _ h => exact h

theorem exists_answers (w : World) (f : Function) (args : List UInt64) (s : Store) :
    ∃ r s', w.Answers f args s r s' := by
  by_cases hbuiltin : ∃ ignoreCase limited,
    Builtin.ofName? f.name = some (.compareStrings ignoreCase limited)
  · obtain ⟨ignoreCase, limited, hbuiltin⟩ := hbuiltin
    exact ⟨_, _, .compared hbuiltin (Memory.comparesBytes_compareStrings _ _ _ _ _)⟩
  · obtain ⟨r, s', h⟩ := Exec.exists_conclude (w.callDeclared f args s)
    exact ⟨r, s', .other (fun ic l heq => hbuiltin ⟨ic, l, heq⟩) h⟩

end World

/-! ## Runs without a budget -/

/-- What a run is about to do. -/
inductive Task where
  | call (id : FuncId) (args : List UInt64)
  | perform (a : Activation) (frame : Frame) (callee : Callee) (args : List Value)
  | step (a : Activation) (frame : Frame) (i : InstId)
  | arrive (a : Activation) (c : Cursor)
  | leave (a : Activation) (block : BlockId) (term : Terminator) (insts : List InstId)
    (frame : Frame)

/-- How a run ends: by itself, or because it is not followed any further. -/
inductive Ending where
  | finished (result : Except Stop UInt64)
  | cut

namespace Ending

/-- The result of a run that is cut where no step is left. -/
def result : Ending → Except Stop UInt64
  | .finished result => result
  | .cut => .error (.trap .stepBudget)

/-- A budget lets a run of some steps end so: it covers them, and is used up where a run is cut. -/
def Within : Ending → Nat → Nat → Prop
  | .finished _, steps, budget => steps ≤ budget
  | .cut, steps, budget => steps = budget

theorem Within.le {e : Ending} {steps budget : Nat} (h : e.Within steps budget) :
    steps ≤ budget := by
  cases e with
  | finished result => exact h
  | cut => exact Nat.le_of_eq h

/-- One more step takes one more of the budget. -/
theorem Within.succ {e : Ending} {steps budget : Nat} (h : e.Within steps budget) :
    e.Within (1 + steps) (budget + 1) := by
  cases e with
  | finished result => exact Nat.add_comm 1 steps ▸ Nat.succ_le_succ h
  | cut => exact Nat.add_comm 1 steps ▸ congrArg Nat.succ h

/-- What comes after some steps has what they leave of the budget. -/
theorem Within.after {e : Ending} {before steps budget : Nat} (hle : before ≤ budget)
    (h : e.Within steps (budget - before)) : e.Within (before + steps) budget := by
  cases e with
  | finished result => exact Nat.add_comm steps before ▸ Nat.add_le_of_le_sub hle h
  | cut => exact (congrArg (before + ·) h).trans (Nat.add_sub_of_le hle)

theorem Within.of_add {e : Ending} {before steps budget : Nat}
    (h : e.Within (before + steps) budget) : e.Within steps (budget - before) := by
  cases e with
  | finished result => exact Nat.le_sub_of_add_le' h
  | cut => exact Nat.eq_sub_of_add_eq' h

theorem Within.exists_succ {e : Ending} {steps budget : Nat} (h : e.Within (1 + steps) budget) :
    ∃ left, budget = left + 1 ∧ e.Within steps left := by
  have hle := h.le
  obtain ⟨left, rfl⟩ := Nat.exists_eq_add_of_le' (show 1 ≤ budget by omega)
  exact ⟨left, rfl, h.of_add⟩

theorem eq_of_result {e : Ending} {value : UInt64} (h : e.result = .ok value) :
    e = .finished (.ok value) := by
  cases e with
  | finished result => exact congrArg finished h
  | cut => cases h

/-- The run does not end in a value. -/
def Stopped (e : Ending) : Prop :=
  ∃ cause, e.result = .error cause

end Ending

namespace World

variable (w : World)

/-- Without a budget a task is done in this many steps, from one store to another. The steps that
the stores say are left do not matter. -/
inductive Executes : Task → Store → Nat → Ending → Store → Prop
  | unknown {id : FuncId} {args : List UInt64} {s : Store} {fault : Fault}
    (hf : w.module.function id = .error fault) :
    Executes (.call id args) s 0 (.finished (.error (.fault fault))) s
  | declared {id : FuncId} {args : List UInt64} {s s' : Store} {f : Function}
    {r : Except Stop UInt64} (hf : w.module.function id = .ok f) (hentry : f.entryBlock? = none)
    (h : w.Answers f args s r s') : Executes (.call id args) s 0 (.finished r) s'
  | body {id : FuncId} {args : List UInt64} {s s' : Store} {f : Function} {entry : BlockId} {k : Nat}
    {e : Ending} (hf : w.module.function id = .ok f) (hentry : f.entryBlock? = some entry)
    (h : Executes (.arrive ⟨f, args⟩ ⟨∅, none, entry⟩) s k e s') : Executes (.call id args) s k e s'
  | untargeted {a : Activation} {frame : Frame} {callee : Callee} {args : List Value}
    {s s' : Store} {cause : Stop} (h : w.target a frame callee args s = .error cause s') :
    Executes (.perform a frame callee args) s 0 (.finished (.error cause)) s'
  | targeted {a : Activation} {frame : Frame} {callee : Callee} {args : List Value} {id : FuncId}
    {values : List UInt64} {s s₁ s' : Store} {k : Nat} {e : Ending}
    (htarget : w.target a frame callee args s = .ok (id, values) s₁)
    (h : Executes (.call id values) s₁ k e s') : Executes (.perform a frame callee args) s k e s'
  | dangling {a : Activation} {frame : Frame} {i : InstId} {s : Store} {fault : Fault}
    (hkind : a.function.kind i = .error fault) :
    Executes (.step a frame i) s 0 (.finished (.error (.fault fault))) s
  | plain {a : Activation} {frame : Frame} {i : InstId} {kind : InstKind} {s s' : Store}
    {r : Except Stop UInt64} (hkind : a.function.kind i = .ok kind) (hcall : kind.isCall = false)
    (h : w.step w.alone a frame i s = Exec.conclude r s') :
    Executes (.step a frame i) s 0 (.finished r) s'
  | calls {a : Activation} {frame : Frame} {i : InstId} {callee : Callee} {args : List Value}
    {ret : Ty} {s s' : Store} {k : Nat} {e : Ending}
    (hkind : a.function.kind i = .ok (.call callee args ret))
    (h : Executes (.perform a frame callee args) s k e s') : Executes (.step a frame i) s k e s'
  | lost {a : Activation} {c : Cursor} {s s' : Store} {cause : Stop}
    (h : w.arrival a c s = .error cause s') :
    Executes (.arrive a c) s 0 (.finished (.error cause)) s'
  | arrived {a : Activation} {c : Cursor} {term : Terminator} {insts : List InstId} {frame : Frame}
    {s s₁ s' : Store} {k : Nat} {e : Ending}
    (harrival : w.arrival a c s = .ok (term, insts, frame) s₁)
    (h : Executes (.leave a c.block term insts frame) s₁ k e s') :
    Executes (.arrive a c) s k e s'
  /-- Where another step is due the run need not be followed any further. -/
  | cut {a : Activation} {block : BlockId} {term : Terminator} {insts : List InstId} {frame : Frame}
    {s : Store} : Executes (.leave a block term insts frame) s 0 .cut s
  | stopped {a : Activation} {block : BlockId} {term : Terminator} {i : InstId}
    {insts : List InstId} {frame : Frame} {s s' : Store} {k : Nat} {e : Ending}
    (h : Executes (.step a frame i) s k e s') (hstopped : e.Stopped) :
    Executes (.leave a block term (i :: insts) frame) s (1 + k) e s'
  | executed {a : Activation} {block : BlockId} {term : Terminator} {i : InstId}
    {insts : List InstId} {frame : Frame} {s s₁ s' : Store} {j k : Nat} {value : UInt64} {e : Ending}
    (h : Executes (.step a frame i) s j (.finished (.ok value)) s₁)
    (hrest : Executes (.leave a block term insts (frame.insert i value)) s₁ k e s') :
    Executes (.leave a block term (i :: insts) frame) s (1 + j + k) e s'
  | stuck {a : Activation} {block : BlockId} {term : Terminator} {frame : Frame} {s s' : Store}
    {cause : Stop} (hcalls : term.calls = false)
    (h : w.runTerminator w.alone a frame block term s = .error cause s') :
    Executes (.leave a block term [] frame) s 1 (.finished (.error cause)) s'
  | returned {a : Activation} {block : BlockId} {term : Terminator} {frame : Frame} {s s' : Store}
    {value : UInt64} (hcalls : term.calls = false)
    (h : w.runTerminator w.alone a frame block term s = .ok (.result value) s') :
    Executes (.leave a block term [] frame) s 1 (.finished (.ok value)) s'
  | jumped {a : Activation} {block : BlockId} {term : Terminator} {frame : Frame} {c : Cursor}
    {s s₁ s' : Store} {k : Nat} {e : Ending} (hcalls : term.calls = false)
    (h : w.runTerminator w.alone a frame block term s = .ok (.jump c) s₁)
    (hrest : Executes (.arrive a c) s₁ k e s') :
    Executes (.leave a block term [] frame) s (1 + k) e s'
  | invokeStopped {a : Activation} {block normal unwind : BlockId} {callee : Callee}
    {args : List Value} {frame : Frame} {s s' : Store} {k : Nat} {e : Ending}
    (h : Executes (.perform a frame callee args) s k e s') (hstopped : e.Stopped) :
    Executes (.leave a block (.invoke callee args normal unwind) [] frame) s (1 + k) e s'
  | invoked {a : Activation} {block normal unwind : BlockId} {callee : Callee} {args : List Value}
    {frame : Frame} {s s₁ s' : Store} {j k : Nat} {value : UInt64} {e : Ending}
    (h : Executes (.perform a frame callee args) s j (.finished (.ok value)) s₁)
    (hrest : Executes (.arrive a ⟨frame, some block, normal⟩) s₁ k e s') :
    Executes (.leave a block (.invoke callee args normal unwind) [] frame) s (1 + j + k) e s'

variable {w}

/-! ### Every budget is enough for a run, or cuts it -/

/-- Any budget lets the task end in some way. -/
def Executes.Exist (w : World) (budget : Nat) (task : Task) : Prop :=
  ∀ s, ∃ k e s', w.Executes task s k e s' ∧ e.Within k budget

section

variable {budget : Nat}

theorem exists_executes_leave (ih : ∀ n < budget, ∀ task, Executes.Exist w n task) (a : Activation)
    (block : BlockId) (term : Terminator) (insts : List InstId) (frame : Frame) :
    Executes.Exist w budget (.leave a block term insts frame) := by
  intro s
  cases budget with
  | zero => exact ⟨0, .cut, s, .cut, rfl⟩
  | succ n =>
    cases insts with
    | cons i insts =>
      obtain ⟨j, e, s₁, hstep, hj⟩ := ih n (Nat.lt_succ_self n) (.step a frame i) s
      cases hresult : e.result with
      | error cause => exact ⟨1 + j, e, s₁, .stopped hstep ⟨cause, hresult⟩, hj.succ⟩
      | ok value =>
        obtain rfl := Ending.eq_of_result hresult
        obtain ⟨k, e, s₂, hrest, hk⟩ := ih (n + 1 - (1 + j)) (by omega)
          (.leave a block term insts (frame.insert i value)) s₁
        exact ⟨1 + j + k, e, s₂, .executed hstep hrest, hk.after hj.succ.le⟩
    | nil =>
      cases hcalls : term.calls with
      | false =>
        cases hterm : w.runTerminator w.alone a frame block term s with
        | error cause s₁ => exact ⟨1, _, s₁, .stuck hcalls hterm, Nat.le_add_left 1 n⟩
        | ok outcome s₁ =>
          cases outcome with
          | result value => exact ⟨1, _, s₁, .returned hcalls hterm, Nat.le_add_left 1 n⟩
          | jump c =>
            obtain ⟨k, e, s₂, hrest, hk⟩ := ih n (Nat.lt_succ_self n) (.arrive a c) s₁
            exact ⟨1 + k, e, s₂, .jumped hcalls hterm hrest, hk.succ⟩
      | true =>
        obtain ⟨callee, args, normal, unwind, rfl⟩ :
            ∃ callee args normal unwind, term = .invoke callee args normal unwind := by
          cases term <;> first | exact ⟨_, _, _, _, rfl⟩ | cases hcalls
        obtain ⟨j, e, s₁, hcall, hj⟩ := ih n (Nat.lt_succ_self n) (.perform a frame callee args) s
        cases hresult : e.result with
        | error cause => exact ⟨1 + j, e, s₁, .invokeStopped hcall ⟨cause, hresult⟩, hj.succ⟩
        | ok value =>
          obtain rfl := Ending.eq_of_result hresult
          obtain ⟨k, e, s₂, hrest, hk⟩ := ih (n + 1 - (1 + j)) (by omega)
            (.arrive a ⟨frame, some block, normal⟩) s₁
          exact ⟨1 + j + k, e, s₂, .invoked hcall hrest, hk.after hj.succ.le⟩

theorem exists_executes_arrive
    (h : ∀ a block term insts frame, Executes.Exist w budget (.leave a block term insts frame))
    (a : Activation) (c : Cursor) : Executes.Exist w budget (.arrive a c) := by
  intro s
  cases harrival : w.arrival a c s with
  | error cause s₁ => exact ⟨0, _, s₁, .lost harrival, Nat.zero_le budget⟩
  | ok there s₁ =>
    obtain ⟨term, insts, frame⟩ := there
    obtain ⟨k, e, s', hleave, hk⟩ := h a c.block term insts frame s₁
    exact ⟨k, e, s', .arrived harrival hleave, hk⟩

theorem exists_executes_call (h : ∀ a c, Executes.Exist w budget (.arrive a c)) (id : FuncId)
    (args : List UInt64) : Executes.Exist w budget (.call id args) := by
  intro s
  cases hf : w.module.function id with
  | error fault => exact ⟨0, _, s, .unknown hf, Nat.zero_le budget⟩
  | ok f =>
    cases hentry : f.entryBlock? with
    | none =>
      obtain ⟨r, s', hanswers⟩ := w.exists_answers f args s
      exact ⟨0, _, s', .declared hf hentry hanswers, Nat.zero_le budget⟩
    | some entry =>
      obtain ⟨k, e, s', hbody, hk⟩ := h ⟨f, args⟩ ⟨∅, none, entry⟩ s
      exact ⟨k, e, s', .body hf hentry hbody, hk⟩

theorem exists_executes_perform (h : ∀ id args, Executes.Exist w budget (.call id args))
    (a : Activation) (frame : Frame) (callee : Callee) (args : List Value) :
    Executes.Exist w budget (.perform a frame callee args) := by
  intro s
  cases htarget : w.target a frame callee args s with
  | error cause s₁ => exact ⟨0, _, s₁, .untargeted htarget, Nat.zero_le budget⟩
  | ok call s₁ =>
    obtain ⟨id, values⟩ := call
    obtain ⟨k, e, s', hcall, hk⟩ := h id values s₁
    exact ⟨k, e, s', .targeted htarget hcall, hk⟩

theorem exists_executes_step
    (h : ∀ a frame callee args, Executes.Exist w budget (.perform a frame callee args))
    (a : Activation) (frame : Frame) (i : InstId) :
    Executes.Exist w budget (.step a frame i) := by
  intro s
  cases hkind : a.function.kind i with
  | error fault => exact ⟨0, _, s, .dangling hkind, Nat.zero_le budget⟩
  | ok kind =>
    cases hcall : kind.isCall with
    | false =>
      obtain ⟨r, s', hstep⟩ := Exec.exists_conclude (w.step w.alone a frame i s)
      exact ⟨0, _, s', .plain hkind hcall hstep, Nat.zero_le budget⟩
    | true =>
      obtain ⟨callee, args, ret, rfl⟩ : ∃ callee args ret, kind = .call callee args ret := by
        cases kind <;> first | exact ⟨_, _, _, rfl⟩ | cases hcall
      obtain ⟨k, e, s', hperform, hk⟩ := h a frame callee args s
      exact ⟨k, e, s', .calls hkind hperform, hk⟩

end

/-- With any budget, whatever is to be done ends: by itself within the budget, or cut when all of
the budget is used up. -/
theorem exists_executes (w : World) (budget : Nat) (task : Task) :
    Executes.Exist w budget task := by
  induction budget using Nat.strong_induction_on generalizing task with
  | _ budget ih =>
    have hleave := exists_executes_leave ih
    have harrive := exists_executes_arrive hleave
    have hcall := exists_executes_call harrive
    have hperform := exists_executes_perform hcall
    cases task with
    | call id args => exact hcall id args
    | perform a frame callee args => exact hperform a frame callee args
    | step a frame i => exact exists_executes_step hperform a frame i
    | arrive a c => exact harrive a c
    | leave a block term insts frame => exact hleave a block term insts frame

/-! ### The machine does what a run without a budget does -/

/-- The machine's way of doing a task with some fuel. -/
def runTask (w : World) (fuel : Nat) : Task → Exec UInt64
  | .call id args => w.enter (w.run fuel) id args
  | .perform a frame callee args => w.performCall (w.enter (w.run fuel)) a frame callee args
  | .step a frame i => w.step (w.enter (w.run fuel)) a frame i
  | .arrive a c => w.run fuel a c
  | .leave a block term insts frame => w.rest fuel a block term insts frame

end World

/-- The fuel outlasts the budget. What is done inside of a block has had its part of the fuel. -/
def Task.Fueled (fuel budget : Nat) : Task → Prop
  | .leave _ _ _ _ _ => budget ≤ fuel
  | _ => budget < fuel

namespace World

variable {w : World}

/-- With a budget that lets the run end so, and enough fuel, the machine ends so, and what the run
does not take of the budget is left. -/
theorem Executes.runTask {task : Task} {s s' : Store} {k : Nat} {e : Ending}
    (h : w.Executes task s k e s') {budget fuel : Nat} (hbudget : e.Within k budget)
    (hfuel : task.Fueled fuel budget) :
    w.runTask fuel task (s.withSteps budget) =
      Exec.conclude e.result (s'.withSteps (budget - k)) := by
  induction h generalizing budget fuel with
  | unknown hf =>
    change w.enter _ _ _ _ = _
    rw [enter, hf]
    rfl
  | declared hf hentry h =>
    change w.enter _ _ _ _ = _
    rw [enter_of_bodiless hf hentry]
    exact (heedless_callDeclared _ _).conclude h.callDeclared budget
  | body hf hentry _ ih =>
    change w.enter _ _ _ _ = _
    rw [enter_of_body hf hentry]
    exact ih hbudget hfuel
  | untargeted h =>
    change w.performCall _ _ _ _ _ _ = _
    rw [performCall_eq]
    exact Exec.bind_of_error ((heedless_target _ _).conclude (r := .error _) h budget)
  | targeted htarget _ ih =>
    change w.performCall _ _ _ _ _ _ = _
    rw [performCall_eq,
      Exec.bind_of_ok ((heedless_target _ _).conclude (r := .ok _) htarget budget)]
    exact ih hbudget hfuel
  | dangling hkind =>
    change w.step _ _ _ _ _ = _
    rw [step, hkind]
    rfl
  | plain hkind hcall h =>
    change w.step _ _ _ _ _ = _
    rw [step_of_not_call hkind hcall]
    exact (heedless_step hkind hcall).conclude h budget
  | calls hkind _ ih =>
    change w.step _ _ _ _ _ = _
    rw [step_call hkind]
    exact ih hbudget hfuel
  | lost h =>
    obtain ⟨fuel, rfl⟩ := Nat.exists_eq_add_of_lt hfuel
    change w.run _ _ _ _ = _
    rw [run_succ_of_arrival]
    exact Exec.bind_of_error ((fixed_arrival w _ _).heedless.conclude (r := .error _) h budget)
  | arrived harrival _ ih =>
    obtain ⟨fuel, rfl⟩ := Nat.exists_eq_add_of_lt hfuel
    change w.run _ _ _ _ = _
    rw [run_succ_of_arrival,
      Exec.bind_of_ok ((fixed_arrival w _ _).heedless.conclude (r := .ok _) harrival budget)]
    exact ih hbudget (Nat.le_add_right budget fuel)
  | @cut a block term insts frame s =>
    obtain rfl : 0 = budget := hbudget
    change w.rest _ _ _ _ _ _ _ = _
    cases insts with
    | nil => rw [rest_nil, Exec.bind_of_error (Exec.tick_zero s)]; rfl
    | cons i insts => rw [rest_cons, Exec.bind_of_error (Exec.tick_zero s)]; rfl
  | @stopped a block term i insts frame s s' k e h hstopped ih =>
    obtain ⟨left, rfl, hleft⟩ := hbudget.exists_succ
    obtain ⟨cause, hcause⟩ := hstopped
    have hstep := ih hleft hfuel
    rw [hcause] at hstep ⊢
    rw [Nat.add_comm 1 k, Nat.add_sub_add_right]
    change w.rest _ _ _ _ _ _ _ = _
    rw [rest_cons, Exec.bind_of_ok (Exec.tick_succ s left)]
    exact Exec.bind_of_error hstep
  | @executed a block term i insts frame s s₁ s' j k value e h hrest ih ihrest =>
    rw [Nat.add_assoc] at hbudget ⊢
    obtain ⟨left, rfl, hleft⟩ := hbudget.exists_succ
    have hstep := ih (Nat.le_of_add_right_le hleft.le) hfuel
    rw [Nat.add_comm 1 (j + k), Nat.add_sub_add_right, Nat.sub_add_eq]
    change w.rest _ _ _ _ _ _ _ = _
    rw [rest_cons, Exec.bind_of_ok (Exec.tick_succ s left)]
    refine (Exec.bind_of_ok hstep).trans ?_
    exact ihrest hleft.of_add (Nat.le_trans (Nat.sub_le left j) (Nat.le_of_succ_le hfuel))
  | @stuck a block term frame s s' cause hcalls h =>
    obtain ⟨left, rfl, -⟩ := Ending.Within.exists_succ (e := .finished _) (Nat.add_zero 1 ▸ hbudget)
    change w.rest _ _ _ _ _ _ _ = _
    rw [rest_nil, Exec.bind_of_ok (Exec.tick_succ s left),
      runTerminator_alone hcalls]
    exact Exec.bind_of_error ((fixed_runTerminator hcalls).heedless.conclude (r := .error _) h left)
  | @returned a block term frame s s' value hcalls h =>
    obtain ⟨left, rfl, -⟩ := Ending.Within.exists_succ (e := .finished _) (Nat.add_zero 1 ▸ hbudget)
    change w.rest _ _ _ _ _ _ _ = _
    rw [rest_nil, Exec.bind_of_ok (Exec.tick_succ s left),
      runTerminator_alone hcalls]
    exact Exec.bind_of_ok ((fixed_runTerminator hcalls).heedless.conclude (r := .ok _) h left)
  | @jumped a block term frame c s s₁ s' k e hcalls h hrest ih =>
    obtain ⟨left, rfl, hleft⟩ := hbudget.exists_succ
    rw [Nat.add_comm 1 k, Nat.add_sub_add_right]
    change w.rest _ _ _ _ _ _ _ = _
    rw [rest_nil, Exec.bind_of_ok (Exec.tick_succ s left),
      runTerminator_alone hcalls]
    have hjump := (fixed_runTerminator hcalls).heedless.conclude (r := .ok _) h left
    exact (Exec.bind_of_ok hjump).trans (ih hleft hfuel)
  | @invokeStopped a block normal unwind callee args frame s s' k e h hstopped ih =>
    obtain ⟨left, rfl, hleft⟩ := hbudget.exists_succ
    obtain ⟨cause, hcause⟩ := hstopped
    have hcall := ih hleft hfuel
    rw [hcause] at hcall ⊢
    rw [Nat.add_comm 1 k, Nat.add_sub_add_right]
    change w.rest _ _ _ _ _ _ _ = _
    rw [rest_nil, Exec.bind_of_ok (Exec.tick_succ s left), runTerminator_invoke]
    exact Exec.bind_of_error (Exec.bind_of_error hcall)
  | @invoked a block normal unwind callee args frame s s₁ s' j k value e h hrest ih ihrest =>
    rw [Nat.add_assoc] at hbudget ⊢
    obtain ⟨left, rfl, hleft⟩ := hbudget.exists_succ
    have hcall := ih (Nat.le_of_add_right_le hleft.le) hfuel
    rw [Nat.add_comm 1 (j + k), Nat.add_sub_add_right, Nat.sub_add_eq]
    change w.rest _ _ _ _ _ _ _ = _
    rw [rest_nil, Exec.bind_of_ok (Exec.tick_succ s left), runTerminator_invoke, bind_assoc]
    refine (Exec.bind_of_ok hcall).trans ?_
    exact ihrest hleft.of_add (Nat.lt_of_le_of_lt (Nat.sub_le left j) hfuel)

end World

/-! ## No run goes in circles -/

/-- What is done is done for a function whose types can be told. -/
def Task.Typed : Task → Prop
  | .call _ _ => True
  | .perform a _ _ _ | .step a _ _ | .arrive a _ | .leave a _ _ _ _ =>
    a.function.Acyclic InstKind.typeOperand?

namespace World

variable {w : World}

theorem acyclic_of_entryBlock? (hm : w.module.EndsTypes) {id : FuncId} {f : Function}
    {entry : BlockId} (hf : w.module.function id = .ok f) (hentry : f.entryBlock? = some entry) :
    f.Acyclic InstKind.typeOperand? := by
  have hmem : f ∈ w.module.functions := Array.mem_of_getElem? (Module.function_eq_ok.mp hf)
  refine hm f hmem ?_
  rw [Function.entryBlock?, List.head?_eq_some_iff] at hentry
  obtain ⟨rest, hlayout⟩ := hentry
  rw [Function.isDeclaration, hlayout, List.isEmpty_cons]

theorem Executes.straight (hw : w.HandlersEnd) (hm : w.module.EndsTypes) {task : Task}
    {s s' : Store} {k : Nat} {e : Ending} (h : w.Executes task s k e s') (htask : task.Typed)
    {cause : Stop} (hcause : e.result = .error cause) : ¬cause.Endless := by
  induction h with
  | unknown hf =>
    rintro ⟨id, rfl⟩
    obtain rfl := Stop.fault.inj (Except.error.inj hcause)
    unfold Module.function at hf
    split at hf <;> cases hf
  | declared hf hentry h =>
    subst hcause
    exact straight_callDeclared hw _ _ _ _ _ h.callDeclared
  | body hf hentry _ ih => exact ih (acyclic_of_entryBlock? hm hf hentry) hcause
  | untargeted h =>
    obtain rfl := Except.error.inj hcause
    exact w.straight_target _ _ _ _ _ _ _ h
  | targeted _ _ ih => exact ih trivial hcause
  | dangling hkind =>
    rintro ⟨id, rfl⟩
    obtain rfl := Stop.fault.inj (Except.error.inj hcause)
    exact Function.kind_ne_cyclicType _ id hkind
  | plain hkind hcall h =>
    subst hcause
    exact straight_step htask hkind hcall _ _ _ h
  | calls _ _ ih => exact ih htask hcause
  | lost h =>
    obtain rfl := Except.error.inj hcause
    exact w.straight_arrival _ _ _ _ _ h
  | arrived _ _ ih => exact ih htask hcause
  | cut =>
    rintro ⟨id, rfl⟩
    cases hcause
  | stopped _ _ ih => exact ih htask hcause
  | executed _ _ _ ih => exact ih htask hcause
  | stuck hcalls h =>
    obtain rfl := Except.error.inj hcause
    exact straight_runTerminator htask hcalls _ _ _ h
  | returned => cases hcause
  | jumped _ _ _ ih => exact ih htask hcause
  | invokeStopped _ _ ih => exact ih htask hcause
  | invoked _ _ _ ih => exact ih htask hcause

/-- How a call by name goes without a budget. -/
inductive ExecutesCall (w : World) (name : String) (args : List UInt64) (s : Store) :
    Nat → Ending → Store → Prop
  | missing (h : w.module.findFunction? name = none) :
    ExecutesCall w name args s 0 (.finished (.error (.trap (.noSuchFunction name)))) s
  | found {id : FuncId} {k : Nat} {e : Ending} {s' : Store}
    (hid : w.module.findFunction? name = some id) (h : w.Executes (.call id args) s k e s') :
    ExecutesCall w name args s k e s'

theorem exists_executesCall (w : World) (budget : Nat) (name : String) (args : List UInt64)
    (s : Store) : ∃ k e s', w.ExecutesCall name args s k e s' ∧ e.Within k budget := by
  cases hid : w.module.findFunction? name with
  | none => exact ⟨0, _, s, .missing hid, Nat.zero_le budget⟩
  | some id =>
    obtain ⟨k, e, s', h, hk⟩ := w.exists_executes budget (.call id args) s
    exact ⟨k, e, s', .found hid h, hk⟩

variable {name : String} {args : List UInt64} {s s' : Store} {k : Nat} {e : Ending}

theorem ExecutesCall.call (h : w.ExecutesCall name args s k e s') {budget : Nat}
    (hbudget : e.Within k budget) :
    w.call name args (s.withSteps budget) = Exec.conclude e.result (s'.withSteps (budget - k)) := by
  cases h with
  | missing hid =>
    rw [World.call, hid]
    rfl
  | found hid h =>
    rw [call_of_found hid]
    exact h.runTask hbudget (Nat.lt_succ_self budget)

theorem ExecutesCall.straight (hw : w.HandlersEnd) (hm : w.module.EndsTypes)
    (h : w.ExecutesCall name args s k e s') {cause : Stop} (hcause : e.result = .error cause) :
    ¬cause.Endless := by
  cases h with
  | missing =>
    rintro ⟨id, rfl⟩
    cases hcause
  | found _ h => exact h.straight hw hm trivial hcause

end World

namespace Machine

theorem exec_eq_conclude {m : Machine} {steps : Exec UInt64} {r : Except Stop UInt64} {s : Store}
    (h : steps m.store = Exec.conclude r s) : m.exec steps = (r, { m with store := s }) := by
  rw [exec, h]
  cases r <;> rfl

/-- A call with a budget is the first part of the run without one: it executes no more instructions
and leaves no more blocks than the budget, and is cut only where all of it is used up. No type is
looked for forever. A call that ends in another way ends so with every larger budget, with as many
more steps left. -/
theorem call_within_budget (m : Machine) (hm : m.world.module.EndsTypes)
    (hw : m.world.HandlersEnd) (name : String) (args : List UInt64) (budget : Nat) :
    ∃ steps e s, m.world.ExecutesCall name args m.store steps e s ∧ e.Within steps budget ∧
      (m.setStepBudget budget).call name args =
        (e.result, { m with store := s.withSteps (budget - steps) }) ∧
      (∀ cause, e.result = .error cause → ¬cause.Endless) ∧
      (e.result ≠ .error (.trap .stepBudget) → ∀ larger, budget ≤ larger →
        (m.setStepBudget larger).call name args =
          (e.result, { m with store := s.withSteps (budget - steps + (larger - budget)) })) := by
  obtain ⟨steps, e, s, h, hbudget⟩ := m.world.exists_executesCall budget name args m.store
  refine ⟨steps, e, s, h, hbudget, ?_, fun cause => h.straight hw hm, fun hresult larger hle => ?_⟩
  · exact exec_eq_conclude (m := m.setStepBudget budget) (h.call hbudget)
  · have hsteps := hbudget.le
    cases e with
    | cut => exact absurd rfl hresult
    | finished result =>
      have hlarger : (Ending.finished result).Within steps larger := Nat.le_trans hsteps hle
      have hcall := exec_eq_conclude (m := m.setStepBudget larger) (h.call hlarger)
      rwa [show larger - steps = budget - steps + (larger - budget) by omega] at hcall

/-- Two functions: one goes round for ever, the other one calls nothing and returns. -/
def turning : Module where
  name := "turning"
  functions := #[
    { name := "spin", params := [], ret := .void,
      blocks := #[⟨"entry", [], .br ⟨0⟩⟩], layout := [⟨0⟩] },
    { name := "hop", params := [], ret := .int 32,
      blocks := #[⟨"entry", [], .br ⟨1⟩⟩, ⟨"next", [], .ret (some (.const (.int 32 7)))⟩],
      layout := [⟨0⟩, ⟨1⟩] }]

def turningMachine : Machine where
  world := { module := turning, globals := #[] }
  store := { memory := .empty }

theorem turning_endsTypes : turning.EndsTypes := by
  intro f hf _
  refine Function.acyclic_of_descending ?_
  revert f
  simp [turning]

theorem turning_hop : ((turningMachine.setStepBudget 2).call "hop" []).1.toOption = some 7 := by
  decide +kernel

example : (match ((turningMachine.setStepBudget 100).call "spin" []).1 with
    | .ok _ => none
    | .error cause => some cause) = some (.trap .stepBudget) := by decide +kernel

/-- Two blocks are left, so that a budget of two is enough and every larger one leaves the rest. -/
theorem turning_within_budget : turningMachine.world.module.EndsTypes ∧
    turningMachine.world.HandlersEnd ∧ ∀ larger, 2 ≤ larger →
      ((turningMachine.setStepBudget larger).call "hop" []).1 = .ok 7 := by
  have hw : turningMachine.world.HandlersEnd := fun _ _ h => nomatch h
  refine ⟨turning_endsTypes, hw, fun larger hle => ?_⟩
  obtain ⟨steps, e, s, -, -, hcall, -, hlarger⟩ :=
    call_within_budget turningMachine turning_endsTypes hw "hop" [] 2
  have hresult : e.result = .ok 7 := by
    have hhop := turning_hop
    rw [hcall] at hhop
    cases hr : e.result with
    | ok value => simpa [hr, Except.toOption] using hhop
    | error cause => simp [hr, Except.toOption] at hhop
  rw [hlarger (by rw [hresult]; exact nofun) larger hle, hresult]

end Machine

end EdgeProbe
