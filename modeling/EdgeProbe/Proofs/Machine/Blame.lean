import EdgeProbe.Lowering.Magic
import EdgeProbe.Proofs.Machine.Exec

/-!
# Traps that blame the module

Which steps of a run can end in a trap that says the module is malformed: those that read an
instruction which has no value yet, and no others but for the calls that are made.
-/

namespace EdgeProbe

namespace Exec

variable {α β : Type}

/-- Of the traps that blame the module these steps end in none but some. -/
def BlamesOnly (x : Exec α) (allowed : Trap → Prop) : Prop :=
  ∀ s trap s', x s = .error (.trap trap) s' → trap.isMalformed = true → allowed trap

variable {allowed : Trap → Prop}

theorem BlamesOnly.bind {x : Exec α} {k : α → Exec β} (hx : x.BlamesOnly allowed)
    (hk : ∀ a, (k a).BlamesOnly allowed) : (x >>= k).BlamesOnly allowed := by
  intro s trap s' h ht
  obtain h | ⟨a, s₁, -, h⟩ := bind_eq_error.mp h
  · exact hx s trap s' h ht
  · exact hk a s₁ trap s' h ht

theorem blamesOnly_pure (a : α) : (pure a : Exec α).BlamesOnly allowed := by
  intro s trap s' h
  cases h

theorem blamesOnly_ofChecked (x : Checked α) : (ofChecked x).BlamesOnly allowed :=
  fun _ _ _ h => absurd h ofChecked_ne_trap

theorem blamesOnly_ask_bind {question : Memory → α} {k : α → Exec β}
    (hk : ∀ memory, (k (question memory)).BlamesOnly allowed) :
    (ask question >>= k).BlamesOnly allowed := by
  intro s trap s' h ht
  obtain h | ⟨a, s₁, hask, h⟩ := bind_eq_error.mp h
  · cases h
  · injection hask with hask
    subst hask
    exact hk s.memory s₁ trap s' h ht

theorem blamesOnly_report (id : UInt32) : (report id).BlamesOnly allowed := by
  intro s trap s' h
  cases h

theorem blamesOnly_stop {trap : Trap} (ht : trap.isMalformed = true → allowed trap) :
    (stop trap : Exec α).BlamesOnly allowed := by
  intro s trap' s' h ht'
  rw [stop_apply] at h
  injection h with hcause
  injection hcause with htrap
  subst htrap
  exact ht ht'

theorem blamesOnly_ofTrap {x : Except Trap α}
    (hx : ∀ trap, x = .error trap → trap.isMalformed = false) :
    (ofTrap x).BlamesOnly allowed := by
  cases x with
  | ok a => exact blamesOnly_pure a
  | error trap => exact blamesOnly_stop fun ht => absurd ht (by simp [hx trap rfl])

theorem blamesOnly_ofStop {x : Except Stop α}
    (hx : ∀ trap, x = .error (.trap trap) → trap.isMalformed = false) :
    (ofStop x).BlamesOnly allowed := by
  cases x with
  | ok a => exact blamesOnly_pure a
  | error cause =>
    intro s trap s' h ht
    rw [ofStop, throw_apply] at h
    injection h with hcause
    exact absurd ht (by simp [hx trap (by rw [hcause])])

theorem blamesOnly_access {work : Access α}
    (hwork : ∀ memory trap memory', work memory = .error (.trap trap) memory' →
      trap.isMalformed = false) : (access work).BlamesOnly allowed := by
  intro s trap s' h ht
  rw [access_apply] at h
  split at h
  · cases h
  · next cause memory heq =>
    injection h with hcause
    subst hcause
    exact absurd ht (by simp [hwork _ _ _ heq])

theorem tick_blameless {s s' : Store} {trap : Trap} (h : tick s = .error (.trap trap) s') :
    trap.isMalformed = false := by
  injection tick_eq_error h with htrap
  rw [htrap]
  rfl

theorem blamesOnly_mapM {f : α → Exec β} {l : List α}
    (hf : ∀ a ∈ l, (f a).BlamesOnly allowed) : (l.mapM f).BlamesOnly allowed := by
  induction l with
  | nil => exact blamesOnly_pure []
  | cons a rest ih =>
    rw [List.mapM_cons]
    refine (hf a List.mem_cons_self).bind fun b => ?_
    refine (ih fun a ha => hf a (List.mem_cons_of_mem _ ha)).bind fun bs => ?_
    exact blamesOnly_pure _

end Exec

/-! ## Memory -/

namespace Memory

variable {memory memory' : Memory} {trap : Trap}

theorem byte_blameless {addr : UInt64} (h : memory.byte addr = .error trap) :
    trap.isMalformed = false := by
  unfold byte at h
  split at h
  · cases h
  · obtain rfl := Except.error.inj h
    rfl

theorem read_blameless {addr : UInt64} {len : Nat} (h : memory.read addr len = .error trap) :
    trap.isMalformed = false := by
  unfold read at h
  split at h
  · cases h
  · obtain rfl := Except.error.inj h
    rfl

theorem write_blameless {addr : UInt64} {data : List UInt8}
    (h : write addr data memory = .error (.trap trap) memory') : trap.isMalformed = false := by
  unfold write at h
  split at h
  · cases h
  · injection h with hcause
    injection hcause with htrap
    subst htrap
    rfl

theorem readWord_blameless {addr : UInt64} {size : Nat}
    (h : memory.readWord addr size = .error (.trap trap)) : trap.isMalformed = false := by
  unfold readWord at h
  split at h
  · cases h
  · split at h
    · cases h
    · next trap' heq =>
      injection h with hcause
      injection hcause with htrap
      subst htrap
      exact read_blameless heq

theorem writeWord_blameless {addr value : UInt64} {size : Nat}
    (h : writeWord addr size value memory = .error (.trap trap) memory') :
    trap.isMalformed = false := by
  unfold writeWord at h
  split at h
  · cases h
  · exact write_blameless h

theorem alloc_blameless {len : Nat} (h : alloc len memory = .error (.trap trap) memory') :
    trap.isMalformed = false := by
  simp only [alloc] at h
  split at h
  · cases h
  · cases h

theorem copy_blameless {target source : UInt64} {len : Nat}
    (h : copy target source len memory = .error (.trap trap) memory') :
    trap.isMalformed = false := by
  unfold copy at h
  split at h
  · exact write_blameless h
  · next trap' heq =>
    injection h with hcause
    injection hcause with htrap
    subst htrap
    exact read_blameless heq

theorem compareFrom_blameless {ignoreCase : Bool} {left : Nat} {lhs rhs : UInt64}
    (h : memory.compareFrom ignoreCase left lhs rhs = .error trap) : trap.isMalformed = false := by
  induction left generalizing lhs rhs with
  | zero => cases h
  | succ left ih =>
    rw [compareFrom] at h
    cases hl : memory.byte lhs with
    | error t =>
      rw [hl] at h
      exact Except.error.inj h ▸ byte_blameless hl
    | ok a =>
      cases hr : memory.byte rhs with
      | error t =>
        rw [hl, hr] at h
        exact Except.error.inj h ▸ byte_blameless hr
      | ok b =>
        rw [hl, hr] at h
        simp only [bind, Except.bind] at h
        split at h
        · cases h
        · exact ih h

theorem compareRegions_blameless {lhs rhs : UInt64} {len : Nat}
    (h : memory.compareRegions lhs rhs len = .error trap) : trap.isMalformed = false := by
  unfold compareRegions at h
  cases hl : memory.read lhs len with
  | error t =>
    rw [hl] at h
    exact Except.error.inj h ▸ read_blameless hl
  | ok a =>
    cases hr : memory.read rhs len with
    | error t =>
      rw [hl, hr] at h
      exact Except.error.inj h ▸ read_blameless hr
    | ok b =>
      rw [hl, hr] at h
      simp only [bind, Except.bind] at h
      split at h
      · cases h
      · cases h

end Memory

namespace World

variable {w : World}

/-! ## Steps of a run -/

/-- The trap says that one of some operands is an instruction without a value. -/
def Missing (name : String) (frame : Frame) (values : List Value) (trap : Trap) : Prop :=
  ∃ id, .inst id ∈ values ∧ frame[id]? = none ∧ trap = .readTooEarly name id

/-- No function that stands in for a missing one says that the module is to blame. -/
def HandlersBlameless (w : World) : Prop :=
  ∀ name handler, w.handlers.lookup name = some handler → ∀ args memory trap memory',
    handler args memory = .error (.trap trap) memory' → trap.isMalformed = false

variable {a : Activation} {frame : Frame} {caller : Caller} {values : List Value}

theorem eval_blames {value : Value} (h : value ∈ values) :
    (w.eval a frame value).BlamesOnly (Missing a.function.name frame values) := by
  cases value with
  | inst id =>
    rw [eval]
    split
    · exact Exec.blamesOnly_pure _
    · next hnone => exact Exec.blamesOnly_stop fun _ => ⟨id, h, hnone, rfl⟩
  | const c => cases c <;> exact Exec.blamesOnly_pure _
  | global id => exact Exec.blamesOnly_ofChecked _
  | arg index => exact Exec.blamesOnly_pure _
  | func id => exact Exec.blamesOnly_pure _

theorem widthOf_blames {allowed : Trap → Prop} {value : Value} :
    (widthOf a value).BlamesOnly allowed :=
  (Exec.blamesOnly_ofChecked _).bind fun _ => Exec.blamesOnly_pure _

theorem runBuiltin_blames {allowed : Trap → Prop} {builtin : Builtin} {args : List UInt64} :
    (runBuiltin builtin args).BlamesOnly allowed := by
  cases builtin with
  | compareStrings ignoreCase limited =>
    refine Exec.blamesOnly_ask_bind fun memory => ?_
    refine (Exec.blamesOnly_ofTrap ?_).bind fun _ => Exec.blamesOnly_pure _
    exact fun trap htrap => Memory.compareFrom_blameless htrap
  | compareRegions =>
    refine Exec.blamesOnly_ask_bind fun memory => ?_
    refine (Exec.blamesOnly_ofTrap ?_).bind fun _ => Exec.blamesOnly_pure _
    exact fun trap htrap => Memory.compareRegions_blameless htrap
  | copy =>
    refine (Exec.blamesOnly_access ?_).bind fun _ => Exec.blamesOnly_pure _
    exact fun _ _ _ h => Memory.copy_blameless h
  | trace => exact (Exec.blamesOnly_report _).bind fun _ => Exec.blamesOnly_pure _

theorem callDeclared_blames {allowed : Trap → Prop} (hw : w.HandlersBlameless) {f : Function}
    {args : List UInt64} : (w.callDeclared f args).BlamesOnly allowed := by
  unfold callDeclared
  split
  · exact runBuiltin_blames.bind fun _ => Exec.blamesOnly_pure _
  · split
    · next handler hlookup =>
      refine (Exec.blamesOnly_access ?_).bind fun _ => Exec.blamesOnly_pure _
      exact hw f.name handler hlookup args
    · exact Exec.blamesOnly_stop nofun

/-- An instruction that is neither a phi nor a call blames the module for an operand only. -/
theorem step_blames {id : InstId} {kind : InstKind} (hkind : a.function.kind id = .ok kind)
    (hphi : kind.isPhi = false) (hcall : kind.isCall = false) :
    (w.step caller a frame id).BlamesOnly (Missing a.function.name frame kind.operands) := by
  rw [step, hkind, Exec.ofChecked_ok, pure_bind]
  cases kind with
  | phi ty incoming => cases hphi
  | call callee args ret => cases hcall
  | landingPad => exact Exec.blamesOnly_pure _
  | icmp pred lhs rhs =>
    refine widthOf_blames.bind fun width => ?_
    refine (eval_blames (by simp [InstKind.operands])).bind fun l => ?_
    exact (eval_blames (by simp [InstKind.operands])).bind fun r => Exec.blamesOnly_pure _
  | binary op lhs rhs =>
    refine widthOf_blames.bind fun width => ?_
    refine (eval_blames (by simp [InstKind.operands])).bind fun l => ?_
    exact (eval_blames (by simp [InstKind.operands])).bind fun r => Exec.blamesOnly_pure _
  | cast op value width =>
    refine widthOf_blames.bind fun source => ?_
    refine (eval_blames (by simp [InstKind.operands])).bind fun bits => ?_
    cases op <;> exact Exec.blamesOnly_pure _
  | select cond onTrue onFalse =>
    refine (eval_blames (by simp [InstKind.operands])).bind fun c => ?_
    split
    · exact eval_blames (by simp [InstKind.operands])
    · exact eval_blames (by simp [InstKind.operands])
  | load ty ptr =>
    refine (eval_blames (by simp [InstKind.operands])).bind fun addr => ?_
    refine Exec.blamesOnly_ask_bind fun memory => ?_
    refine (Exec.blamesOnly_ofStop ?_).bind fun raw => ?_
    · exact fun trap htrap => Memory.readWord_blameless htrap
    · cases ty <;> exact Exec.blamesOnly_pure _
  | store value ptr =>
    refine (Exec.blamesOnly_ofChecked _).bind fun ty => ?_
    refine (eval_blames (by simp [InstKind.operands])).bind fun bits => ?_
    refine (eval_blames (by simp [InstKind.operands])).bind fun addr => ?_
    refine (Exec.blamesOnly_access ?_).bind fun _ => Exec.blamesOnly_pure _
    exact fun _ _ _ h => Memory.writeWord_blameless h
  | gep base offset =>
    refine widthOf_blames.bind fun width => ?_
    refine (eval_blames (by simp [InstKind.operands])).bind fun distance => ?_
    exact (eval_blames (by simp [InstKind.operands])).bind fun base => Exec.blamesOnly_pure _
  | alloca size => exact Exec.blamesOnly_access fun _ _ _ h => Memory.alloc_blameless h

/-- A terminator that makes no call blames the module for an operand only. -/
theorem runTerminator_blames {block : BlockId} {term : Terminator}
    (hterm : ∀ callee args normal unwind, term ≠ .invoke callee args normal unwind) :
    (w.runTerminator caller a frame block term).BlamesOnly
      (Missing a.function.name frame term.operands) := by
  unfold runTerminator
  cases term with
  | ret value =>
    cases value with
    | none => exact Exec.blamesOnly_pure _
    | some value =>
      exact (eval_blames (by simp [Terminator.operands])).bind fun _ => Exec.blamesOnly_pure _
  | br target => exact Exec.blamesOnly_pure _
  | condBr cond onTrue onFalse =>
    exact (eval_blames (by simp [Terminator.operands])).bind fun _ => Exec.blamesOnly_pure _
  | switch value default cases =>
    refine widthOf_blames.bind fun width => ?_
    refine (eval_blames (by simp [Terminator.operands])).bind fun bits => ?_
    dsimp only
    split
    · exact Exec.blamesOnly_pure _
    · exact Exec.blamesOnly_pure _
  | invoke callee args normal unwind => exact absurd rfl (hterm callee args normal unwind)
  | resume value => exact Exec.blamesOnly_stop nofun
  | unreachable => exact Exec.blamesOnly_stop nofun

end World

end EdgeProbe
