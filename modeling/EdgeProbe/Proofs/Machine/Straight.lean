import EdgeProbe.Proofs.Machine.Fixed
import EdgeProbe.Proofs.Safety.Chains

/-!
# Steps that do not go in circles

The machine asks for types, and a type may be looked for forever if it is that of an operand that
depends on itself. Where no chain of operands comes back to where it was, no step of a run does so.
-/

namespace EdgeProbe

/-- The fault in place of a search for a type that does not come to an end. -/
def Stop.Endless (cause : Stop) : Prop :=
  ∃ id, cause = .fault (.cyclicType id)

namespace Exec

variable {α β : Type}

/-- The steps look for no type that depends on itself. -/
def Straight (x : Exec α) : Prop :=
  ∀ s cause s', x s = .error cause s' → ¬cause.Endless

theorem straight_pure (a : α) : (pure a : Exec α).Straight :=
  fun _ _ _ h => nomatch h

theorem straight_stop (trap : Trap) : (stop trap : Exec α).Straight := by
  rintro s cause s' h ⟨id, rfl⟩
  cases h

theorem Straight.bind {x : Exec α} {k : α → Exec β} (hx : x.Straight)
    (hk : ∀ a, (k a).Straight) : (x >>= k).Straight := by
  intro s cause s' h
  obtain h | ⟨a, s₁, -, h⟩ := bind_eq_error.mp h
  · exact hx s cause s' h
  · exact hk a s₁ cause s' h

theorem straight_ofChecked {x : Checked α} (hx : ∀ id, x ≠ .error (.cyclicType id)) :
    (ofChecked x).Straight := by
  rintro s cause s' h ⟨id, rfl⟩
  obtain ⟨fault, hfault, hcause, -⟩ := ofChecked_eq_error.mp h
  injection hcause with hcause
  exact hx id (hcause ▸ hfault)

theorem straight_ask_bind {question : Memory → α} {k : α → Exec β}
    (hk : ∀ memory, (k (question memory)).Straight) : (ask question >>= k).Straight :=
  fun s cause s' h => hk s.memory s cause s' h

theorem straight_ofTrap (x : Except Trap α) : (ofTrap x).Straight := by
  cases x with
  | ok a => exact straight_pure a
  | error trap => exact straight_stop trap

theorem straight_access {work : Access α}
    (hwork : ∀ memory cause memory', work memory = .error cause memory' → ¬cause.Endless) :
    (access work).Straight := by
  intro s cause s' h
  rw [access_apply] at h
  split at h
  · cases h
  · next hwork' =>
    injection h with hcause
    exact hcause ▸ hwork _ _ _ hwork'

theorem straight_mapM {g : α → Exec β} (hg : ∀ a, (g a).Straight) (l : List α) :
    (l.mapM g).Straight := by
  induction l with
  | nil => exact straight_pure []
  | cons a rest ih =>
    rw [List.mapM_cons]
    exact (hg a).bind fun _ => ih.bind fun _ => straight_pure _

end Exec

namespace Memory

variable {memory memory' : Memory} {cause : Stop}

theorem not_endless_of_write {addr : UInt64} {data : List UInt8}
    (h : write addr data memory = .error cause memory') : ¬cause.Endless := by
  rintro ⟨id, rfl⟩
  unfold write at h
  split at h <;> cases h

theorem not_endless_of_writeWord {addr value : UInt64} {size : Nat}
    (h : writeWord addr size value memory = .error cause memory') : ¬cause.Endless := by
  unfold writeWord at h
  split at h
  · rintro ⟨id, rfl⟩
    cases h
  · exact not_endless_of_write h

theorem not_endless_of_alloc {len : Nat} (h : alloc len memory = .error cause memory') :
    ¬cause.Endless := by
  rintro ⟨id, rfl⟩
  unfold alloc at h
  dsimp only at h
  split at h <;> cases h

theorem not_endless_of_copy {target source : UInt64} {len : Nat}
    (h : copy target source len memory = .error cause memory') : ¬cause.Endless := by
  unfold copy at h
  split at h
  · exact not_endless_of_write h
  · rintro ⟨id, rfl⟩
    cases h

theorem straight_readWord (memory : Memory) (addr : UInt64) (size : Nat) :
    (Exec.ofStop (memory.readWord addr size)).Straight := by
  rintro s cause s' h ⟨id, rfl⟩
  unfold readWord at h
  split at h
  · cases h
  · split at h <;> cases h

end Memory

namespace Function

theorem block_ne_cyclicType (f : Function) (b : BlockId) (id : InstId) :
    f.block b ≠ .error (.cyclicType id) := by
  unfold block
  split <;> simp

theorem leading_ne_cyclicType (f : Function) (holds : InstKind → Bool) (ids : List InstId)
    (id : InstId) : f.leading holds ids ≠ .error (.cyclicType id) := by
  induction ids with
  | nil => exact fun h => by cases h
  | cons i rest ih =>
    have hkind := kind_ne_cyclicType (f := f) i id
    unfold leading
    dsimp only [bind, Except.bind]
    cases hi : f.kind i with
    | error fault => simpa [hi] using hkind
    | ok kind =>
      dsimp only
      split
      · cases hrest : f.leading holds rest with
        | error fault => simpa [hrest] using ih
        | ok front => exact fun h => by cases h
      · exact fun h => by cases h

theorem phis_ne_cyclicType (f : Function) (b : BlockId) (id : InstId) :
    f.phis b ≠ .error (.cyclicType id) := by
  unfold phis
  dsimp only [bind, Except.bind]
  cases hb : f.block b with
  | error fault => simpa [hb] using block_ne_cyclicType f b id
  | ok blk => exact leading_ne_cyclicType f _ _ id

end Function

namespace World

/-- No handler stands in for a search that does not come to an end. -/
def HandlersEnd (w : World) : Prop :=
  ∀ name handler, w.handlers.lookup name = some handler → ∀ args memory cause memory',
    handler args memory = .error cause memory' → ¬cause.Endless

variable {w : World} {a : Activation} {frame : Frame}

theorem straight_eval (w : World) (a : Activation) (frame : Frame) (value : Value) :
    (w.eval a frame value).Straight := by
  unfold eval
  split
  · split
    · exact Exec.straight_pure _
    · exact Exec.straight_stop _
  · exact Exec.straight_pure _
  · exact Exec.straight_pure _
  · exact Exec.straight_pure _
  · refine Exec.straight_ofChecked fun id => ?_
    unfold globalAddr
    split <;> simp
  · exact Exec.straight_pure _

theorem straight_target (w : World) (a : Activation) (frame : Frame) (callee : Callee)
    (args : List Value) : (w.target a frame callee args).Straight := by
  refine (Exec.straight_mapM (w.straight_eval a frame) args).bind fun values => ?_
  cases callee with
  | direct id => exact Exec.straight_pure _
  | indirect value =>
    refine (w.straight_eval a frame value).bind fun addr => ?_
    split
    · exact Exec.straight_pure _
    · exact Exec.straight_stop _

theorem straight_kind (a : Activation) (i : InstId) :
    (Exec.ofChecked (a.function.kind i)).Straight :=
  Exec.straight_ofChecked (Function.kind_ne_cyclicType i)

theorem straight_enteredPhis (w : World) (a : Activation) (frame : Frame) (source : Option BlockId)
    (phis : List InstId) : (w.enteredPhis a frame source phis).Straight := by
  cases source with
  | none => exact Exec.straight_pure []
  | some source =>
    change (w.phiValues a frame source phis).Straight
    induction phis with
    | nil => exact Exec.straight_pure []
    | cons phi rest ih =>
      refine (straight_kind a phi).bind fun kind => ?_
      split
      · split
        · exact (w.straight_eval a frame _).bind fun _ => ih.bind fun _ => Exec.straight_pure _
        · exact Exec.straight_stop _
      · exact ih

theorem straight_arrival (w : World) (a : Activation) (c : Cursor) :
    (w.arrival a c).Straight := by
  refine (Exec.straight_ofChecked (a.function.block_ne_cyclicType c.block)).bind fun b => ?_
  refine (Exec.straight_ofChecked (a.function.phis_ne_cyclicType c.block)).bind fun phis => ?_
  exact (w.straight_enteredPhis a c.frame c.source phis).bind fun _ => Exec.straight_pure _

theorem straight_runBuiltin (builtin : Builtin) (args : List UInt64) :
    (runBuiltin builtin args).Straight := by
  cases builtin with
  | compareStrings ignoreCase limited =>
    refine Exec.straight_ask_bind fun memory => ?_
    exact (Exec.straight_ofTrap _).bind fun _ => Exec.straight_pure _
  | compareRegions =>
    refine Exec.straight_ask_bind fun memory => ?_
    exact (Exec.straight_ofTrap _).bind fun _ => Exec.straight_pure _
  | copy =>
    exact (Exec.straight_access fun _ _ _ => Memory.not_endless_of_copy).bind fun _ =>
      Exec.straight_pure _
  | trace => exact fun _ _ _ h => nomatch h

theorem straight_callDeclared (hw : w.HandlersEnd) (f : Function) (args : List UInt64) :
    (w.callDeclared f args).Straight := by
  unfold callDeclared
  dsimp only
  split
  · exact (straight_runBuiltin _ _).bind fun _ => Exec.straight_pure _
  · split
    · next handler hlookup =>
      exact (Exec.straight_access (hw f.name handler hlookup args)).bind fun _ =>
        Exec.straight_pure _
    · exact Exec.straight_stop _

section

variable (ha : a.function.Acyclic InstKind.typeOperand?)
include ha

theorem straight_widthOf (value : Value) : (widthOf a value).Straight := by
  refine (Exec.straight_ofChecked fun id => ?_).bind fun _ => Exec.straight_pure _
  unfold Function.intWidth?
  have hne := ha.valueType_ne value id
  cases hty : a.function.valueType value with
  | ok ty => simp [Except.map]
  | error fault => simpa [Except.map, hty] using hne

theorem straight_step {caller : Caller} {i : InstId} {kind : InstKind}
    (hkind : a.function.kind i = .ok kind) (hcall : kind.isCall = false) :
    (w.step caller a frame i).Straight := by
  have heval := w.straight_eval a frame
  rw [step, hkind, Exec.ofChecked_ok, pure_bind]
  cases kind with
  | call callee args ret => cases hcall
  | phi ty incoming => exact Exec.straight_stop _
  | landingPad => exact Exec.straight_pure _
  | icmp pred lhs rhs =>
    refine (straight_widthOf ha lhs).bind fun _ => (heval lhs).bind fun _ => ?_
    exact (heval rhs).bind fun _ => Exec.straight_pure _
  | binary op lhs rhs =>
    refine (straight_widthOf ha _).bind fun _ => (heval lhs).bind fun _ => ?_
    exact (heval rhs).bind fun _ => Exec.straight_pure _
  | cast op value width =>
    refine (straight_widthOf ha value).bind fun _ => (heval value).bind fun _ => ?_
    cases op <;> exact Exec.straight_pure _
  | select cond onTrue onFalse =>
    refine (heval cond).bind fun _ => ?_
    split <;> exact heval _
  | load ty ptr =>
    refine (heval ptr).bind fun addr => Exec.straight_ask_bind fun memory => ?_
    refine (memory.straight_readWord addr ty.storeSize).bind fun raw => ?_
    cases ty <;> exact Exec.straight_pure _
  | store value ptr =>
    refine (Exec.straight_ofChecked (ha.valueType_ne value)).bind fun ty => ?_
    refine (heval value).bind fun bits => (heval ptr).bind fun addr => ?_
    exact (Exec.straight_access fun _ _ _ => Memory.not_endless_of_writeWord).bind fun _ =>
      Exec.straight_pure _
  | gep base offset =>
    refine (straight_widthOf ha offset).bind fun _ => (heval offset).bind fun _ => ?_
    exact (heval base).bind fun _ => Exec.straight_pure _
  | alloca size => exact Exec.straight_access fun _ _ _ => Memory.not_endless_of_alloc

theorem straight_runTerminator {caller : Caller} {block : BlockId} {term : Terminator}
    (h : term.calls = false) : (w.runTerminator caller a frame block term).Straight := by
  have heval := w.straight_eval a frame
  unfold runTerminator
  cases term with
  | invoke callee args normal unwind => cases h
  | ret value =>
    cases value with
    | none => exact Exec.straight_pure _
    | some value => exact (heval value).bind fun _ => Exec.straight_pure _
  | br target => exact Exec.straight_pure _
  | condBr cond onTrue onFalse => exact (heval cond).bind fun _ => Exec.straight_pure _
  | switch value default cases =>
    refine (straight_widthOf ha value).bind fun width => (heval value).bind fun _ => ?_
    dsimp only
    split <;> exact Exec.straight_pure _
  | resume value => exact Exec.straight_stop _
  | unreachable => exact Exec.straight_stop _

end

end World

end EdgeProbe
