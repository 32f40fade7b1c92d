import EdgeProbe.Proofs.Machine.Budget
import EdgeProbe.Proofs.Machine.Contents

/-!
# Parts of memory that a run ignores

Steps ignore a part of memory if they come to the same whatever is there, do the same to the rest of
memory, and leave that part alone (`Exec.Ignores`). They can then be done again in a memory that
holds something else there (`Exec.Ignores.again`), by the same instruction of a rewritten function in
a world with another module (`World.Alike.step_again`).
-/

namespace EdgeProbe

namespace Memory

/-- The memories are of one size and hold the same but for what is hidden, and stand-ins keep the same
in them. -/
structure AgreeOutside (hidden : Nat → Prop) (m m' : Memory) : Prop where
  size : m'.size = m.size
  kept : m'.kept = m.kept
  bytes : ∀ k, ¬hidden k → m'.bytes[k]? = m.bytes[k]?

/-- What is hidden is the same in both. -/
def AgreeInside (hidden : Nat → Prop) (m m' : Memory) : Prop :=
  ∀ k, hidden k → m'.bytes[k]? = m.bytes[k]?

variable {hidden : Nat → Prop} {m m₁ m' : Memory}

theorem AgreeOutside.refl (hidden : Nat → Prop) (m : Memory) : m.AgreeOutside hidden m :=
  ⟨rfl, rfl, fun _ _ => rfl⟩

theorem AgreeOutside.trans (h : m.AgreeOutside hidden m₁) (h' : m₁.AgreeOutside hidden m') :
    m.AgreeOutside hidden m' :=
  ⟨h'.size.trans h.size, h'.kept.trans h.kept, fun k hk => (h'.bytes k hk).trans (h.bytes k hk)⟩

section

variable {addr : UInt64} {len : Nat} {data : List UInt8}

theorem AgreeOutside.inBounds (h : m.AgreeOutside hidden m') (addr : UInt64) (len : Nat) :
    m'.inBounds addr len = m.inBounds addr len := by
  rw [Memory.inBounds, Memory.inBounds, h.size]

/-- What is not hidden is read alike. -/
theorem AgreeOutside.read (h : m.AgreeOutside hidden m')
    (hclear : ∀ k < len, ¬hidden (addr.toNat + k)) : m'.read addr len = m.read addr len := by
  have hsize : m'.bytes.size = m.bytes.size := h.size
  have hextract : m'.bytes.extract addr.toNat (addr.toNat + len) =
      m.bytes.extract addr.toNat (addr.toNat + len) := by
    refine Array.ext_getElem? fun k => ?_
    rw [Array.getElem?_extract, Array.getElem?_extract, hsize]
    split
    · next hk => exact h.bytes _ (hclear k (by omega))
    · rfl
  rw [Memory.read, Memory.read, h.inBounds, hextract]

theorem AgreeOutside.readWord (h : m.AgreeOutside hidden m')
    (hclear : len ≤ 8 → ∀ k < len, ¬hidden (addr.toNat + k)) :
    m'.readWord addr len = m.readWord addr len := by
  unfold Memory.readWord
  split
  · rfl
  · next hle => rw [h.read (hclear (Nat.not_lt.mp hle))]

/-- What is not hidden is written alike. -/
theorem AgreeOutside.write (h : m.AgreeOutside hidden m')
    (hclear : ∀ k < data.length, ¬hidden (addr.toNat + k))
    (hwrite : Memory.write addr data m = .ok () m₁) : ∃ m₂, Memory.write addr data m' = .ok () m₂ ∧
      m₁.AgreeOutside hidden m₂ ∧ m'.AgreeInside hidden m₂ := by
  have hsize : m'.bytes.size = m.bytes.size := h.size
  unfold Memory.write at hwrite
  split at hwrite
  swap
  · cases hwrite
  next hin =>
  obtain rfl := (EStateM.Result.ok.inj hwrite).2.symm
  have hend : addr.toNat + data.length ≤ m.bytes.size := (Memory.inBounds_iff.mp hin).2
  have hend' : addr.toNat + data.length ≤ m'.bytes.size := hend.trans_eq hsize.symm
  refine ⟨{ m' with bytes := overwrite m'.bytes addr.toNat data }, ?_,
    ⟨?_, h.kept, fun k hk => ?_⟩, fun k hk => ?_⟩
  · rw [Memory.write, if_pos (by rwa [h.inBounds])]
  · exact (size_overwrite _ _ _).trans (hsize.trans (size_overwrite _ _ _).symm)
  · rw [getElem?_overwrite _ _ _ _ hend', getElem?_overwrite _ _ _ _ hend, h.bytes k hk]
  · rw [getElem?_overwrite _ _ _ _ hend', if_neg]
    rintro ⟨hle, hlt⟩
    obtain ⟨j, rfl⟩ := Nat.exists_eq_add_of_le hle
    exact hclear j (by omega) hk

theorem AgreeOutside.writeWord {value : UInt64} (h : m.AgreeOutside hidden m')
    (hclear : len ≤ 8 → ∀ k < len, ¬hidden (addr.toNat + k))
    (hwrite : Memory.writeWord addr len value m = .ok () m₁) :
    ∃ m₂, Memory.writeWord addr len value m' = .ok () m₂ ∧ m₁.AgreeOutside hidden m₂ ∧
      m'.AgreeInside hidden m₂ := by
  unfold Memory.writeWord at hwrite ⊢
  split at hwrite
  · cases hwrite
  · next hle =>
    rw [if_neg hle]
    exact h.write (by simpa using hclear (Nat.not_lt.mp hle)) hwrite

end

end Memory

namespace Exec

variable {α β : Type} {x : Exec α} {hidden : Nat → Prop} {s s₁ t : Store}

/-- The steps neither read nor write what is hidden: whatever is there, they come to the same and do
the same to the rest of memory, and what is hidden stays as it is. -/
def Ignores (hidden : Nat → Prop) (x : Exec α) (s : Store) : Prop :=
  ∀ a s₁, x s = .ok a s₁ → ∀ memory, s.memory.AgreeOutside hidden memory →
    ∃ s₂, x { s with memory } = .ok a s₂ ∧ s₁.memory.AgreeOutside hidden s₂.memory ∧
      memory.AgreeInside hidden s₂.memory

theorem Fixed.ignores (h : x.Fixed) : x.Ignores hidden s := by
  intro a s₁ hs memory hmemory
  obtain ⟨rfl, hall⟩ := h.eq_ok hs
  exact ⟨_, hall _, hmemory, fun _ _ => rfl⟩

theorem Fixed.bind_ignores (hx : x.Fixed) {k : α → Exec β}
    (hk : ∀ a, x s = .ok a s → (k a).Ignores hidden s) : (x >>= k).Ignores hidden s := by
  intro b s₂ h memory hmemory
  obtain ⟨a, s₁, ha, hb⟩ := bind_eq_ok.mp h
  obtain ⟨rfl, hall⟩ := hx.eq_ok ha
  obtain ⟨t, ht, hout, hin⟩ := hk a ha b s₂ hb memory hmemory
  exact ⟨t, bind_eq_ok.mpr ⟨a, _, hall _, ht⟩, hout, hin⟩

theorem ignores_ask {question : Memory → α}
    (h : ∀ memory, s.memory.AgreeOutside hidden memory → question memory = question s.memory) :
    (ask question).Ignores hidden s := by
  intro a s₁ hs memory hmemory
  obtain ⟨rfl, rfl⟩ := EStateM.Result.ok.inj hs
  exact ⟨_, congrArg (EStateM.Result.ok · _) (h memory hmemory), hmemory, fun _ _ => rfl⟩

theorem ignores_access {work : Access α} (h : ∀ a m₁ memory, work s.memory = .ok a m₁ →
      s.memory.AgreeOutside hidden memory → ∃ m₂, work memory = .ok a m₂ ∧
        m₁.AgreeOutside hidden m₂ ∧ memory.AgreeInside hidden m₂) :
    (access work).Ignores hidden s := by
  intro a s₁ hs memory hmemory
  obtain ⟨m₁, hwork, rfl⟩ := access_eq_ok hs
  obtain ⟨m₂, hwork', hout, hin⟩ := h a m₁ memory hwork hmemory
  exact ⟨{ s with memory := m₂ }, by rw [access_apply, hwork'], hout, hin⟩

/-- What comes next does not work on memory. -/
theorem Ignores.bind_fixed (h : x.Ignores hidden s) {k : α → Exec β} (hk : ∀ a, (k a).Fixed) :
    (x >>= k).Ignores hidden s := by
  intro b s₂ hs memory hmemory
  obtain ⟨a, s₁, ha, hb⟩ := bind_eq_ok.mp hs
  obtain ⟨t, ht, hout, hin⟩ := h a s₁ ha memory hmemory
  obtain ⟨rfl, hall⟩ := (hk a).eq_ok hb
  exact ⟨t, bind_eq_ok.mpr ⟨a, t, ht, hall t⟩, hout, hin⟩

/-- What the steps come to, and what they make of memory, depends on nothing but memory. -/
def OfMemory (x : Exec α) : Prop :=
  ∀ s t : Store, t.memory = s.memory → ∀ a s₁, x s = .ok a s₁ →
    ∃ t₁, x t = .ok a t₁ ∧ t₁.memory = s₁.memory

theorem OfMemory.bind (hx : x.OfMemory) {k : α → Exec β} (hk : ∀ a, (k a).OfMemory) :
    (x >>= k).OfMemory := by
  intro s t hst b s₂ h
  obtain ⟨a, s₁, ha, hb⟩ := bind_eq_ok.mp h
  obtain ⟨t₁, ha', hst₁⟩ := hx s t hst a s₁ ha
  obtain ⟨t₂, hb', hst₂⟩ := hk a s₁ t₁ hst₁ b s₂ hb
  exact ⟨t₂, bind_eq_ok.mpr ⟨a, t₁, ha', hb'⟩, hst₂⟩

theorem Fixed.ofMemory (h : x.Fixed) : x.OfMemory := by
  intro s t hst a s₁ ha
  obtain ⟨rfl, hall⟩ := h.eq_ok ha
  exact ⟨t, hall t, hst⟩

theorem ofMemory_ask (question : Memory → α) : (ask question).OfMemory := by
  intro s t hst a s₁ h
  obtain ⟨rfl, rfl⟩ := EStateM.Result.ok.inj h
  exact ⟨t, congrArg (fun memory => EStateM.Result.ok (question memory) t) hst, hst⟩

theorem ofMemory_access (work : Access α) : (access work).OfMemory := by
  intro s t hst a s₁ h
  obtain ⟨memory, hwork, rfl⟩ := access_eq_ok h
  exact ⟨{ t with memory }, by rw [access_apply, hst, hwork], rfl⟩

theorem ofMemory_report (id : UInt32) : (report id).OfMemory := by
  intro s t hst a s₁ h
  obtain ⟨-, rfl⟩ := EStateM.Result.ok.inj h
  exact ⟨_, rfl, hst⟩

/-- Where memory differs in nothing but what is hidden, steps that ignore that can be done again. -/
theorem Ignores.again (h : x.Ignores hidden s) (hx : x.OfMemory) {a : α} (hs : x s = .ok a s₁)
    (ht : s.memory.AgreeOutside hidden t.memory) : ∃ t₁, x t = .ok a t₁ ∧
      s₁.memory.AgreeOutside hidden t₁.memory ∧ t.memory.AgreeInside hidden t₁.memory := by
  obtain ⟨s₂, hs₂, hout, hin⟩ := h a s₁ hs t.memory ht
  obtain ⟨t₁, ht₁, hmemory⟩ := hx { s with memory := t.memory } t rfl a s₂ hs₂
  exact ⟨t₁, ht₁, hmemory ▸ hout, hmemory ▸ hin⟩

/-- What yields a value without fuel is just done. -/
theorem Heedless.of_yields (hx : x.Heedless) {a : α} (h : Yields (fun _ => x) s (.ok a s₁)) :
    ∃ s₂, x s = .ok a s₂ ∧ s₂.memory = s₁.memory := by
  obtain ⟨enough, cost, h⟩ := h
  have hrun : x (s.withSteps (cost + 0)) = withSteps (.ok a s₁) 0 := h enough le_rfl 0
  rw [hx s] at hrun
  cases hs : x s with
  | ok b s₂ =>
    rw [hs] at hrun
    obtain ⟨rfl, hstores⟩ := EStateM.Result.ok.inj hrun
    have hmemory := congrArg Store.memory hstores
    exact ⟨s₂, rfl, hmemory⟩
  | error cause s₂ =>
    rw [hs] at hrun
    cases hrun

end Exec

namespace World

variable {w : World} {a a' : Activation} {frame frame' : Frame} {hidden : Nat → Prop} {size : Nat}
  {s s₁ t : Store} {i : InstId} {kind : InstKind}

/-- An instruction that calls nothing. -/
theorem ofMemory_step {caller : Caller} (hkind : a.function.kind i = .ok kind)
    (hcall : kind.isCall = false) : (w.step caller a frame i).OfMemory := by
  by_cases hfixed : kind.touches = false ∧ kind.loads = false
  · exact (fixed_step hkind hfixed.1 hfixed.2).ofMemory
  rw [step, hkind, Exec.ofChecked_ok, pure_bind]
  cases kind with
  | load ty ptr =>
    refine (w.fixed_eval a frame ptr).ofMemory.bind fun addr => ?_
    refine (Exec.ofMemory_ask _).bind fun answer => ?_
    refine Exec.OfMemory.bind (Exec.Fixed.ofMemory ⟨answer, rfl⟩) fun raw => ?_
    cases ty <;> exact (Exec.fixed_pure _).ofMemory
  | store value ptr =>
    refine (Exec.fixed_ofChecked _).ofMemory.bind fun ty => ?_
    refine (w.fixed_eval a frame value).ofMemory.bind fun bits => ?_
    refine (w.fixed_eval a frame ptr).ofMemory.bind fun addr => ?_
    exact (Exec.ofMemory_access _).bind fun _ => (Exec.fixed_pure _).ofMemory
  | alloca size => exact Exec.ofMemory_access _
  | call callee args ret => cases hcall
  | _ => exact absurd ⟨rfl, rfl⟩ hfixed

theorem ofMemory_runBuiltin (builtin : Builtin) (args : List UInt64) :
    (runBuiltin builtin args).OfMemory := by
  have hofTrap : ∀ answer : Except Trap Int64, (Exec.ofTrap answer).OfMemory := fun answer =>
    Exec.Fixed.ofMemory <| match answer with
      | .ok found => ⟨.ok found, rfl⟩
      | .error trap => ⟨.error (.trap trap), rfl⟩
  cases builtin with
  | compareStrings ignoreCase limited =>
    refine (Exec.ofMemory_ask _).bind fun answer => ?_
    exact (hofTrap answer).bind fun _ => (Exec.fixed_pure _).ofMemory
  | compareRegions =>
    refine (Exec.ofMemory_ask _).bind fun answer => ?_
    exact (hofTrap answer).bind fun _ => (Exec.fixed_pure _).ofMemory
  | copy => exact (Exec.ofMemory_access _).bind fun _ => (Exec.fixed_pure _).ofMemory
  | trace => exact (Exec.ofMemory_report _).bind fun _ => (Exec.fixed_pure _).ofMemory

theorem ofMemory_callDeclared (w : World) (f : Function) (args : List UInt64) :
    (w.callDeclared f args).OfMemory := by
  unfold callDeclared
  dsimp only
  split
  · exact (ofMemory_runBuiltin _ _).bind fun _ => (Exec.fixed_pure _).ofMemory
  · split
    · exact (Exec.ofMemory_access _).bind fun _ => (Exec.fixed_pure _).ofMemory
    · exact (Exec.fixed_stop _).ofMemory

/-- A load of bytes that are not hidden. -/
theorem ignores_load {caller : Caller} {ty : Ty} {ptr : Value}
    (hkind : a.function.kind i = .ok (.load ty ptr))
    (hclear : ∀ addr, w.eval a frame ptr s = .ok addr s → ty.storeSize ≤ 8 →
      ∀ k < ty.storeSize, ¬hidden (addr.toNat + k)) :
    (w.step caller a frame i).Ignores hidden s := by
  rw [step, hkind, Exec.ofChecked_ok, pure_bind]
  refine (w.fixed_eval a frame ptr).bind_ignores fun addr haddr => ?_
  refine (Exec.ignores_ask fun memory hmemory => ?_).bind_fixed fun answer => ?_
  · exact hmemory.readWord (hclear addr haddr)
  · refine Exec.Fixed.bind ⟨answer, rfl⟩ fun raw => ?_
    cases ty <;> exact Exec.fixed_pure _

/-- A store to bytes that are not hidden. -/
theorem ignores_store {caller : Caller} {value ptr : Value}
    (hkind : a.function.kind i = .ok (.store value ptr))
    (hclear : ∀ ty addr, a.function.valueType value = .ok ty → w.eval a frame ptr s = .ok addr s →
      ty.storeSize ≤ 8 → ∀ k < ty.storeSize, ¬hidden (addr.toNat + k)) :
    (w.step caller a frame i).Ignores hidden s := by
  rw [step, hkind, Exec.ofChecked_ok, pure_bind]
  refine (Exec.fixed_ofChecked _).bind_ignores fun ty hty => ?_
  refine (w.fixed_eval a frame value).bind_ignores fun bits _ => ?_
  refine (w.fixed_eval a frame ptr).bind_ignores fun addr haddr => ?_
  refine (Exec.ignores_access fun _ m₁ memory hwrite hmemory => ?_).bind_fixed fun _ =>
    Exec.fixed_pure _
  exact hmemory.writeWord (hclear ty addr (Exec.ofChecked_eq_ok.mp hty).1 haddr) hwrite

/-- What the activation does at a moment ignores what is hidden. A function with a body that is
called then has moments of its own. -/
def Ignores (w : World) (hidden : Nat → Prop) (moment : Moment) : Prop :=
  match moment.place with
  | .arriving _ => True
  | .within _ (i :: _) frame => ∀ s₁, Exec.tick moment.store = .ok () s₁ →
    (w.step w.alone moment.activation frame i).Ignores hidden s₁
  | .within block [] frame => ∀ b s₁, moment.activation.function.block block = .ok b →
    Exec.tick moment.store = .ok () s₁ →
      (w.runTerminator w.alone moment.activation frame block b.term).Ignores hidden s₁

section

variable {callee : Callee} {args : List Value} {callId : FuncId} {values : List UInt64} {f : Function}
  {value : UInt64}

/-- The call of a function without a body is what the activation does itself. -/
theorem performCall_of_bodiless (htarget : w.target a frame callee args s = .ok (callId, values) s₁)
    (hf : w.module.function callId = .ok f) (hentry : f.entryBlock? = none) :
    w.performCall w.alone a frame callee args = w.callDeclared f values := by
  funext t
  rw [performCall_of_target (((w.fixed_target a frame callee args).eq_ok htarget).2 t), alone,
    enter_of_bodiless hf hentry]

/-- What such a call does is done again where the caller ignores what is hidden. -/
theorem callDeclared_again
    (hignores : (w.performCall w.alone a frame callee args).Ignores hidden s)
    (htarget : w.target a frame callee args s = .ok (callId, values) s)
    (hf : w.module.function callId = .ok f) (hentry : f.entryBlock? = none)
    (hcall : w.callDeclared f values s = .ok value s₁)
    (ht : s.memory.AgreeOutside hidden t.memory) : ∃ t₁, w.callDeclared f values t = .ok value t₁ ∧
      s₁.memory.AgreeOutside hidden t₁.memory ∧ t.memory.AgreeInside hidden t₁.memory := by
  rw [performCall_of_bodiless htarget hf hentry] at hignores
  exact hignores.again (w.ofMemory_callDeclared f values) hcall ht

/-- So it is where an invocation does, which makes no use of the value. -/
theorem invoked_again {block normal unwind : BlockId}
    (hignores : (w.runTerminator w.alone a frame block
      (.invoke callee args normal unwind)).Ignores hidden s)
    (htarget : w.target a frame callee args s = .ok (callId, values) s)
    (hf : w.module.function callId = .ok f) (hentry : f.entryBlock? = none)
    (hcall : w.callDeclared f values s = .ok value s₁)
    (ht : s.memory.AgreeOutside hidden t.memory) : ∃ value' t₁,
      w.callDeclared f values t = .ok value' t₁ ∧ s₁.memory.AgreeOutside hidden t₁.memory ∧
        t.memory.AgreeInside hidden t₁.memory := by
  rw [runTerminator_invoke, performCall_of_bodiless htarget hf hentry] at hignores
  have hmemory := (w.ofMemory_callDeclared f values).bind fun _ =>
    (Exec.fixed_pure (Outcome.jump ⟨frame, some block, normal⟩)).ofMemory
  obtain ⟨t₁, ht₁, hout, hin⟩ :=
    hignores.again hmemory (Exec.bind_eq_ok.mpr ⟨value, s₁, hcall, rfl⟩) ht
  obtain ⟨value', t₂, hcall', hend⟩ := Exec.bind_eq_ok.mp ht₁
  obtain ⟨-, rfl⟩ := EStateM.Result.ok.inj hend
  exact ⟨value', t₂, hcall', hout, hin⟩

end

/-! ## Other modules -/

/-- The world with another module. -/
def withModule (w : World) (m : Module) : World :=
  { w with module := m }

variable {m : Module}

@[simp] theorem eval_withModule (value : Value) :
    (w.withModule m).eval a frame value = w.eval a frame value := by
  cases value with
  | const c => cases c <;> rfl
  | _ => rfl

theorem step_withModule {caller : Caller} (hkind : a.function.kind i = .ok kind)
    (hcall : kind.isCall = false) (caller' : Caller) :
    (w.withModule m).step caller' a frame i = w.step caller a frame i := by
  unfold step
  rw [hkind]
  cases kind with
  | call callee args ret => cases hcall
  | _ => simp only [eval_withModule, Exec.ofChecked_ok, pure_bind]

/-- A module with more functions has the same ones at their addresses. -/
theorem functionAt?_withModule (hsize : w.module.functions.size ≤ m.functions.size) {addr : UInt64}
    {id : FuncId} (h : w.functionAt? addr = some id) : (w.withModule m).functionAt? addr = some id := by
  unfold functionAt? at h ⊢
  split at h
  · next hbase =>
    dsimp only at h
    split at h
    · next hlt =>
      have hlt' : (addr - functionBase).toNat < (w.withModule m).module.functions.size :=
        hlt.trans_le hsize
      rw [if_pos hbase]
      dsimp only
      rw [if_pos hlt', h]
    · cases h
  · cases h

/-- So it calls the same ones. -/
theorem target_withModule (hsize : w.module.functions.size ≤ m.functions.size) {callee : Callee}
    {args : List Value} {call : FuncId × List UInt64}
    (h : w.target a frame callee args s = .ok call s₁) :
    (w.withModule m).target a frame callee args s = .ok call s₁ := by
  have heval : (w.withModule m).eval a frame = w.eval a frame := funext fun value => eval_withModule value
  unfold target at h ⊢
  rw [heval]
  obtain ⟨values, s₂, hvalues, h⟩ := Exec.bind_eq_ok.mp h
  refine Exec.bind_eq_ok.mpr ⟨values, s₂, hvalues, ?_⟩
  cases callee with
  | direct id => exact h
  | indirect ptr =>
    obtain ⟨addr, s₃, haddr, h⟩ := Exec.bind_eq_ok.mp h
    refine Exec.bind_eq_ok.mpr ⟨addr, s₃, haddr, ?_⟩
    cases hfound : w.functionAt? addr with
    | none =>
      rw [hfound] at h
      cases h
    | some id =>
      rw [hfound] at h
      rw [functionAt?_withModule hsize hfound]
      exact h

/-! ## Rewritten functions -/

theorem heedless_alone (w : World) (id : FuncId) (args : List UInt64) :
    (w.alone id args).Heedless := by
  refine (Exec.heedless_ofChecked _).bind fun f => ?_
  split
  · exact Exec.heedless_pure _
  · exact heedless_callDeclared _ _

/-- An instruction that ignores what is hidden is executed again in a rewritten function, when memory
differs in nothing but what is hidden. -/
theorem Alike.step_again (h : Alike w w a a') (hagree : Agree size frame frame')
    (hkind : a.function.kind i = .ok kind) (hkind' : a'.function.kind i = .ok kind)
    (hcall : kind.isCall = false) (hvalues : ∀ value ∈ kind.operands, value.Below size)
    (hignores : (w.step w.alone a frame i).Ignores hidden s) {value : UInt64}
    (hstep : w.step w.alone a frame i s = .ok value s₁)
    (ht : s.memory.AgreeOutside hidden t.memory) (m : Module) :
    ∃ t₁, (w.withModule m).step (w.withModule m).alone a' frame' i t = .ok value t₁ ∧
      s₁.memory.AgreeOutside hidden t₁.memory ∧ t.memory.AgreeInside hidden t₁.memory := by
  obtain ⟨t₁, ht₁, hout, hin⟩ := hignores.again (ofMemory_step hkind hcall) hstep ht
  have hrefines : Exec.Refines (fun _ => False) Eq (w.step w.alone a frame i)
      fun _ => w.step w.alone a' frame' i := by
    exact h.step_refines ⟨id, fun _ => id⟩ hagree
      (fun id args => (w.heedless_alone id args).refines) hkind hkind' hvalues
  have hyields := Exec.refines_eq_iff.mp hrefines t _ ht₁ fun _ _ hne => by cases hne
  obtain ⟨t₂, ht₂, hmemory⟩ := (heedless_step hkind' hcall).of_yields hyields
  rw [step_withModule hkind' hcall]
  exact ⟨t₂, ht₂, hmemory.symm ▸ hout, hmemory.symm ▸ hin⟩

end World

end EdgeProbe
