import EdgeProbe.Proofs.Machine.Soundness

/-!
# What a run sustains

What holds of memory holds throughout a run if no activation breaks it by what it does itself, calls
of functions with bodies apart: those are made of such moments again. What the moments may rely on
besides is what the values in the frame are like. What no work on memory can break lasts throughout
all runs. Main statements: `World.Sustained.run`, `World.Sustained.reaches` and
`World.Lasting.occurs`.
-/

namespace EdgeProbe

namespace Exec

variable {α β : Type} {s s' : Store} {inv : Memory → Prop}

/-- What holds of memory after some steps, whether they were stopped or not. -/
def Leaves (inv : Memory → Prop) (x : Exec α) (s : Store) : Prop :=
  match x s with
  | .ok _ s' => inv s'.memory
  | .error _ s' => inv s'.memory

theorem Leaves.of_ok {x : Exec α} {a : α} (h : x.Leaves inv s) (hx : x s = .ok a s') :
    inv s'.memory := by
  rw [Leaves, hx] at h
  exact h

theorem Leaves.of_error {x : Exec α} {cause : Stop} (h : x.Leaves inv s)
    (hx : x s = .error cause s') : inv s'.memory := by
  rw [Leaves, hx] at h
  exact h

theorem leaves_iff {x : Exec α} : x.Leaves inv s ↔ (∀ a s', x s = .ok a s' → inv s'.memory) ∧
    ∀ cause s', x s = .error cause s' → inv s'.memory := by
  constructor
  · exact fun h => ⟨fun _ _ => h.of_ok, fun _ _ => h.of_error⟩
  · rintro ⟨hok, herror⟩
    unfold Leaves
    split
    · next hx => exact hok _ _ hx
    · next hx => exact herror _ _ hx

theorem leaves_bind {x : Exec α} {k : α → Exec β} : (x >>= k).Leaves inv s ↔
    (∀ a s₁, x s = .ok a s₁ → (k a).Leaves inv s₁) ∧
      ∀ cause s₁, x s = .error cause s₁ → inv s₁.memory := by
  change Leaves inv (EStateM.bind x k) s ↔ _
  unfold Leaves EStateM.bind
  cases x s with
  | ok a s₁ => simp
  | error cause s₁ => simp

theorem Leaves.mono {inv' : Memory → Prop} {x : Exec α} (h : x.Leaves inv s)
    (himp : ∀ m, inv m → inv' m) : x.Leaves inv' s :=
  leaves_iff.mpr ⟨fun _ _ hx => himp _ (h.of_ok hx), fun _ _ hx => himp _ (h.of_error hx)⟩

/-- The steps do not work on memory. -/
def Still (x : Exec α) : Prop :=
  ∀ s, x.Leaves (· = s.memory) s

theorem Still.leaves {x : Exec α} (h : x.Still) (hs : inv s.memory) : x.Leaves inv s :=
  leaves_iff.mpr ⟨fun _ _ hx => (h s).of_ok hx ▸ hs, fun _ _ hx => (h s).of_error hx ▸ hs⟩

theorem Still.bind_leaves {x : Exec α} {k : α → Exec β} (h : x.Still) (hs : inv s.memory)
    (hk : ∀ a s₁, x s = .ok a s₁ → s₁.memory = s.memory → (k a).Leaves inv s₁) :
    (x >>= k).Leaves inv s :=
  leaves_bind.mpr ⟨fun a s₁ hx => hk a s₁ hx ((h s).of_ok hx),
    fun _ _ hx => (h s).of_error hx ▸ hs⟩

theorem Still.bind {x : Exec α} {k : α → Exec β} (h : x.Still) (hk : ∀ a, (k a).Still) :
    (x >>= k).Still := fun _ =>
  h.bind_leaves rfl fun a s₁ _ hs₁ => hs₁ ▸ hk a s₁

theorem still_pure (a : α) : (pure a : Exec α).Still := fun _ => rfl

theorem still_throw (cause : Stop) : (throw cause : Exec α).Still := fun _ => rfl

theorem still_stop (trap : Trap) : (stop trap : Exec α).Still := fun _ => rfl

theorem still_report (id : UInt32) : (report id).Still := fun _ => rfl

theorem still_ask (question : Memory → α) : (ask question).Still := fun _ => rfl

theorem still_ofChecked (x : Checked α) : (ofChecked x).Still := by
  cases x with
  | ok a => exact still_pure a
  | error fault => exact still_throw _

theorem still_ofStop (x : Except Stop α) : (ofStop x).Still := by
  cases x with
  | ok a => exact still_pure a
  | error cause => exact still_throw cause

theorem still_tick : tick.Still := by
  intro s
  unfold Leaves tick
  split
  · next heq =>
    split at heq
    · cases heq
    · obtain ⟨-, rfl⟩ := EStateM.Result.ok.inj heq
      rfl
  · next heq =>
    split at heq
    · obtain ⟨-, rfl⟩ := EStateM.Result.error.inj heq
      rfl
    · cases heq

theorem still_mapM {g : α → Exec β} (hg : ∀ a, (g a).Still) (l : List α) : (l.mapM g).Still := by
  induction l with
  | nil => exact still_pure []
  | cons a rest ih =>
    rw [List.mapM_cons]
    exact .bind (hg a) fun _ => .bind ih fun _ => still_pure _

/-- Work on memory that is done or stopped. -/
theorem leaves_access {work : Access α} (h : ∀ a m', work s.memory = .ok a m' → inv m')
    (hstop : ∀ cause m', work s.memory = .error cause m' → inv m') :
    (access work).Leaves inv s := by
  unfold Leaves
  rw [access_apply]
  cases hwork : work s.memory with
  | ok a m' => exact h a m' hwork
  | error cause m' => exact hstop cause m' hwork

theorem leaves_access_of_after {work : Access α} (h : inv (s.memory.after work)) :
    (access work).Leaves inv s := by
  refine leaves_access (fun a m' hwork => ?_) fun cause m' hwork => ?_
  · rwa [Memory.after, hwork] at h
  · rwa [Memory.after, hwork] at h

end Exec

/-- The instruction works on memory or calls what may do so. -/
def InstKind.touches : InstKind → Bool
  | .store _ _ | .alloca _ | .call _ _ _ => true
  | _ => false

/-- The block ends in a call. -/
def Terminator.calls : Terminator → Bool
  | .invoke _ _ _ _ => true
  | _ => false

namespace World

variable {w : World} {a : Activation} {frame : Frame} {s : Store} {inv : Memory → Prop}

theorem still_eval (w : World) (a : Activation) (frame : Frame) (value : Value) :
    (w.eval a frame value).Still := by
  unfold eval
  split
  · split
    · exact Exec.still_pure _
    · exact Exec.still_stop _
  · exact Exec.still_pure _
  · exact Exec.still_pure _
  · exact Exec.still_pure _
  · exact Exec.still_ofChecked _
  · exact Exec.still_pure _

theorem still_widthOf (a : Activation) (value : Value) : (widthOf a value).Still :=
  .bind (Exec.still_ofChecked _) fun _ => Exec.still_pure _

theorem still_target (w : World) (a : Activation) (frame : Frame) (callee : Callee)
    (args : List Value) : (w.target a frame callee args).Still := by
  refine .bind (Exec.still_mapM (w.still_eval a frame) args) fun values => ?_
  cases callee with
  | direct id => exact Exec.still_pure _
  | indirect value =>
    refine .bind (w.still_eval a frame value) fun addr => ?_
    split
    · exact Exec.still_pure _
    · exact Exec.still_stop _

theorem still_phiValues (w : World) (a : Activation) (frame : Frame) (source : BlockId)
    (phis : List InstId) : (w.phiValues a frame source phis).Still := by
  induction phis with
  | nil => exact Exec.still_pure []
  | cons phi rest ih =>
    refine .bind (Exec.still_ofChecked _) fun kind => ?_
    split
    · split
      · exact .bind (w.still_eval a frame _) fun _ => .bind ih fun _ => Exec.still_pure _
      · exact Exec.still_stop _
    · exact ih

theorem still_enteredPhis (w : World) (a : Activation) (frame : Frame) (source : Option BlockId)
    (phis : List InstId) : (w.enteredPhis a frame source phis).Still := by
  cases source with
  | some source => exact w.still_phiValues a frame source phis
  | none => exact Exec.still_pure []

/-- An instruction that neither works on memory nor calls. -/
theorem still_step {caller : Caller} {i : InstId} {kind : InstKind}
    (hkind : a.function.kind i = .ok kind) (h : kind.touches = false) :
    (w.step caller a frame i).Still := by
  unfold step
  rw [hkind, Exec.ofChecked_ok, pure_bind]
  cases kind with
  | store value ptr => cases h
  | alloca size => cases h
  | call callee args ret => cases h
  | phi ty incoming => exact Exec.still_stop _
  | landingPad => exact Exec.still_pure _
  | icmp pred lhs rhs =>
    refine .bind (still_widthOf a lhs) fun _ => .bind (w.still_eval a frame lhs) fun _ => ?_
    exact .bind (w.still_eval a frame rhs) fun _ => Exec.still_pure _
  | binary op lhs rhs =>
    refine .bind (still_widthOf a _) fun _ => .bind (w.still_eval a frame lhs) fun _ => ?_
    exact .bind (w.still_eval a frame rhs) fun _ => Exec.still_pure _
  | cast op value width =>
    refine .bind (still_widthOf a value) fun _ => .bind (w.still_eval a frame value) fun _ => ?_
    cases op <;> exact Exec.still_pure _
  | select cond onTrue onFalse =>
    refine .bind (w.still_eval a frame cond) fun _ => ?_
    split <;> exact w.still_eval a frame _
  | load ty ptr =>
    refine .bind (w.still_eval a frame ptr) fun _ => .bind (Exec.still_ask _) fun _ => ?_
    refine .bind (Exec.still_ofStop _) fun _ => ?_
    cases ty <;> exact Exec.still_pure _
  | gep base offset =>
    refine .bind (still_widthOf a offset) fun _ => .bind (w.still_eval a frame offset) fun _ => ?_
    exact .bind (w.still_eval a frame base) fun _ => Exec.still_pure _

/-- Leaving a block without a call. -/
theorem still_runTerminator {caller : Caller} {block : BlockId} {term : Terminator}
    (h : term.calls = false) : (w.runTerminator caller a frame block term).Still := by
  unfold runTerminator
  cases term with
  | invoke callee args normal unwind => cases h
  | ret value =>
    cases value with
    | none => exact Exec.still_pure _
    | some value => exact .bind (w.still_eval a frame value) fun _ => Exec.still_pure _
  | br target => exact Exec.still_pure _
  | condBr cond onTrue onFalse =>
    exact .bind (w.still_eval a frame cond) fun _ => Exec.still_pure _
  | switch value default cases =>
    refine .bind (still_widthOf a value) fun width => .bind (w.still_eval a frame value) fun _ => ?_
    dsimp only
    split <;> exact Exec.still_pure _
  | resume value => exact Exec.still_stop _
  | unreachable => exact Exec.still_stop _

/-- Of the built-in functions only the one that copies works on memory. -/
theorem still_runBuiltin {builtin : Builtin} (h : builtin ≠ .copy) (args : List UInt64) :
    (runBuiltin builtin args).Still := by
  cases builtin with
  | compareStrings ignoreCase limited =>
    refine .bind (Exec.still_ask _) fun answer => ?_
    cases answer with
    | ok result => exact Exec.still_pure _
    | error trap => exact Exec.still_stop trap
  | compareRegions =>
    refine .bind (Exec.still_ask _) fun answer => ?_
    cases answer with
    | ok result => exact Exec.still_pure _
    | error trap => exact Exec.still_stop trap
  | copy => exact absurd rfl h
  | trace => exact .bind (Exec.still_report _) fun _ => Exec.still_pure _

theorem still_callDeclared {f : Function} {builtin : Builtin}
    (hbuiltin : Builtin.ofName? f.name = some builtin) (h : builtin ≠ .copy) (args : List UInt64) :
    (w.callDeclared f args).Still := by
  unfold callDeclared
  dsimp only
  rw [hbuiltin]
  exact .bind (still_runBuiltin h args) fun _ => Exec.still_pure _

/-- How calls are made when bodies are left out: what an activation does itself. -/
def alone (w : World) : Caller :=
  w.enter fun _ _ => pure 0

/-! ## One step -/

section

variable {runBody : Activation → Cursor → Exec UInt64}

theorem performCall_leaves {callee : Callee} {args : List Value}
    (halone : (w.performCall w.alone a frame callee args).Leaves inv s)
    (hbody : ∀ id values s₁ f entry, w.target a frame callee args s = .ok (id, values) s₁ →
      w.module.function id = .ok f → f.entryBlock? = some entry →
      (runBody ⟨f, values⟩ ⟨∅, none, entry⟩).Leaves inv s₁) :
    (w.performCall (w.enter runBody) a frame callee args).Leaves inv s := by
  rw [performCall_eq, Exec.leaves_bind] at halone ⊢
  refine ⟨fun ⟨id, values⟩ s₁ htarget => ?_, halone.2⟩
  have h := halone.1 _ s₁ htarget
  dsimp only [alone, enter] at h ⊢
  rw [Exec.leaves_bind] at h ⊢
  refine ⟨fun f s₂ hf => ?_, h.2⟩
  obtain ⟨hf', rfl⟩ := Exec.ofChecked_eq_ok.mp hf
  have hown := h.1 f s₂ hf
  cases hentry : f.entryBlock? with
  | none =>
    rw [hentry] at hown
    exact hown
  | some entry => exact hbody id values s₂ f entry htarget hf' hentry

/-- What an activation leaves of memory by itself, it leaves if calls do so too. -/
theorem step_leaves {i : InstId} (halone : (w.step w.alone a frame i).Leaves inv s)
    (hbody : ∀ callee args ret id values s₁ f entry,
      a.function.kind i = .ok (.call callee args ret) →
      w.target a frame callee args s = .ok (id, values) s₁ →
      w.module.function id = .ok f → f.entryBlock? = some entry →
      (runBody ⟨f, values⟩ ⟨∅, none, entry⟩).Leaves inv s₁) :
    (w.step (w.enter runBody) a frame i).Leaves inv s := by
  cases hkind : a.function.kind i with
  | error fault =>
    unfold step at halone ⊢
    rw [hkind] at halone ⊢
    exact halone
  | ok kind =>
    by_cases hcall : kind.isCall = true
    · cases kind with
      | call callee args ret =>
        have hstep : ∀ caller, w.step caller a frame i = w.performCall caller a frame callee args := by
          intro caller
          rw [step, hkind]
          rfl
        rw [hstep] at halone ⊢
        exact performCall_leaves halone (hbody callee args ret · · · · · hkind)
      | _ => cases hcall
    · rw [step_of_not_call hkind (by simpa using hcall) (w.enter runBody)]
      exact halone

theorem runTerminator_leaves {block : BlockId} {term : Terminator}
    (halone : (w.runTerminator w.alone a frame block term).Leaves inv s)
    (hbody : ∀ callee args normal unwind id values s₁ f entry,
      term = .invoke callee args normal unwind →
      w.target a frame callee args s = .ok (id, values) s₁ →
      w.module.function id = .ok f → f.entryBlock? = some entry →
      (runBody ⟨f, values⟩ ⟨∅, none, entry⟩).Leaves inv s₁) :
    (w.runTerminator (w.enter runBody) a frame block term).Leaves inv s := by
  by_cases hinvoke : ∃ callee args normal unwind, term = .invoke callee args normal unwind
  · obtain ⟨callee, args, normal, unwind, rfl⟩ := hinvoke
    have hend : ∀ caller, w.runTerminator caller a frame block (.invoke callee args normal unwind) =
        (do
          let _ ← w.performCall caller a frame callee args
          return .jump ⟨frame, some block, normal⟩) := fun _ => rfl
    rw [hend, Exec.leaves_bind] at halone ⊢
    have hcall : (w.performCall w.alone a frame callee args).Leaves inv s :=
      Exec.leaves_iff.mpr ⟨fun value s' hvalue => halone.1 value s' hvalue, halone.2⟩
    have hboth := Exec.leaves_iff.mp
      (performCall_leaves hcall (hbody callee args normal unwind · · · · · rfl))
    exact ⟨fun value s₁ hvalue => hboth.1 value s₁ hvalue, hboth.2⟩
  · rw [runTerminator_of_not_invoke (by simpa using hinvoke) (w.enter runBody)]
    exact halone

end

/-- What the program does at a moment itself, calls of functions with bodies apart, changes memory
only in such a way. Of the instructions only some are of the program; all that leaves a block is. -/
def ProgramKeeps (w : World) (kept : Memory → Memory → Prop) (program : FuncId → InstId → Prop)
    (moment : Moment) : Prop :=
  match moment.place with
  | .arriving _ => True
  | .within _ (i :: _) frame => program moment.id i → ∀ s, Exec.tick moment.store = .ok () s →
    (w.step w.alone moment.activation frame i).Leaves (kept s.memory) s
  | .within block [] frame => ∀ b s, moment.activation.function.block block = .ok b →
    Exec.tick moment.store = .ok () s →
      (w.runTerminator w.alone moment.activation frame block b.term).Leaves (kept s.memory) s

theorem ProgramKeeps.mono {kept kept' : Memory → Memory → Prop} {program : FuncId → InstId → Prop}
    {moment : Moment} (h : w.ProgramKeeps kept program moment)
    (himp : ∀ m m', kept m m' → kept' m m') : w.ProgramKeeps kept' program moment := by
  obtain ⟨id, a, n, es, place, s⟩ := moment
  cases place with
  | arriving c => trivial
  | within block insts frame =>
    cases insts with
    | nil => exact fun b s₁ hb htick => Exec.Leaves.mono (h b s₁ hb htick) (himp _)
    | cons i rest => exact fun hi s₁ htick => Exec.Leaves.mono (h hi s₁ htick) (himp _)

/-! ## A whole run -/

/-- What holds of memory and what the values in frames are like is kept at every moment that is
allowed. -/
structure Sustained (w : World) (inv : Memory → Prop) (good : FuncId → Activation → Frame → Prop)
    (allowed : Moment → Prop) : Prop where
  start : ∀ {id f} args, w.module.function id = .ok f → good id ⟨f, args⟩ ∅
  phis : ∀ {id a frame source phis s values s'}, good id a frame →
    w.enteredPhis a frame source phis s = .ok values s' → good id a (setAll frame values)
  value : ∀ {id a frame caller i s value s'}, good id a frame → inv s.memory →
    w.step caller a frame i s = .ok value s' → good id a (frame.insert i value)
  step : ∀ {id a n es block i insts frame s s₁}, good id a frame → inv s.memory →
    allowed ⟨id, a, n, es, .within block (i :: insts) frame, s⟩ → Exec.tick s = .ok () s₁ →
    (w.step w.alone a frame i).Leaves inv s₁
  terminator : ∀ {id a n es block frame b s s₁}, good id a frame → inv s.memory →
    allowed ⟨id, a, n, es, .within block [] frame, s⟩ → a.function.block block = .ok b →
    Exec.tick s = .ok () s₁ → (w.runTerminator w.alone a frame block b.term).Leaves inv s₁

/-- What runs of some fuel leave of memory when all their moments are allowed. -/
def RunLeaves (w : World) (inv : Memory → Prop) (good : FuncId → Activation → Frame → Prop)
    (allowed : Moment → Prop) (n : Nat) : Prop :=
  ∀ id a es c s, good id a c.frame → inv s.memory →
    (∀ moment, Relation.ReflTransGen w.Next ⟨id, a, n, es, .arriving c, s⟩ moment →
      allowed moment) → (w.run n a c).Leaves inv s

namespace Sustained

variable {good : FuncId → Activation → Frame → Prop} {allowed : Moment → Prop}
  (h : w.Sustained inv good allowed) {n : Nat} {id : FuncId} {es : List BlockId} {block : BlockId}
  {b : Block} {insts : List InstId} {s₁ : Store}
include h

theorem call (hn : w.RunLeaves inv good allowed n) {callee : Callee} {args : List Value}
    {values : List UInt64} {f : Function} {entry : BlockId} {s₂ : Store}
    (htarget : w.target a frame callee args s₁ = .ok (id, values) s₂)
    (hf : w.module.function id = .ok f) (hinv : inv s₁.memory)
    (hallowed : ∀ moment, Relation.ReflTransGen w.Next (.start id f entry values n s₂) moment →
      allowed moment) : (w.run n ⟨f, values⟩ ⟨∅, none, entry⟩).Leaves inv s₂ := by
  have hs₂ := (w.still_target a frame callee args s₁).of_ok htarget
  exact hn id _ [] _ _ (h.start values hf) (by rwa [hs₂]) hallowed

theorem executes (hn : w.RunLeaves inv good allowed n) {i : InstId} (hgood : good id a frame)
    (hinv : inv s.memory) (htick : Exec.tick s = .ok () s₁)
    (hallowed : ∀ moment, Relation.ReflTransGen w.Next
      ⟨id, a, n + 1, es, .within block (i :: insts) frame, s⟩ moment → allowed moment) :
    (w.step (w.enter (w.run n)) a frame i).Leaves inv s₁ := by
  have hs₁ := (Exec.still_tick s).of_ok htick
  refine step_leaves (h.step hgood hinv (hallowed _ .refl) htick) ?_
  intro callee args ret callId values s₂ f entry hkind htarget hf hentry
  refine h.call hn htarget hf (by rwa [hs₁]) fun moment hreach => ?_
  exact hallowed moment (.head (.call hkind htick htarget hf hentry) hreach)

theorem ends (hn : w.RunLeaves inv good allowed n) (hb : a.function.block block = .ok b)
    (hgood : good id a frame) (hinv : inv s.memory) (htick : Exec.tick s = .ok () s₁)
    (hallowed : ∀ moment, Relation.ReflTransGen w.Next
      ⟨id, a, n + 1, es, .within block [] frame, s⟩ moment → allowed moment) :
    (w.runTerminator (w.enter (w.run n)) a frame block b.term).Leaves inv s₁ := by
  have hs₁ := (Exec.still_tick s).of_ok htick
  refine runTerminator_leaves (h.terminator hgood hinv (hallowed _ .refl) hb htick) ?_
  intro callee args normal unwind callId values s₂ f entry hterm htarget hf hentry
  refine h.call hn htarget hf (by rwa [hs₁]) fun moment hreach => ?_
  exact hallowed moment (.head (.invoke hb hterm htick htarget hf hentry) hreach)

/-- What is left of a block. -/
theorem rest (hn : w.RunLeaves inv good allowed n) (hb : a.function.block block = .ok b)
    (hgood : good id a frame) (hinv : inv s.memory)
    (hallowed : ∀ moment, Relation.ReflTransGen w.Next
      ⟨id, a, n + 1, es, .within block insts frame, s⟩ moment → allowed moment) :
    (w.rest n a block b.term insts frame).Leaves inv s := by
  induction insts generalizing frame s with
  | nil =>
    rw [rest_nil]
    refine Exec.still_tick.bind_leaves hinv fun _ s₁ htick _ => ?_
    have hend := h.ends hn hb hgood hinv htick hallowed
    refine Exec.leaves_bind.mpr ⟨fun outcome s₂ houtcome => ?_, fun _ _ => hend.of_error⟩
    have hs₂ := hend.of_ok houtcome
    cases outcome with
    | result value => exact hs₂
    | jump c =>
      obtain ⟨hframe, -, -⟩ := runTerminator_eq_jump houtcome
      refine hn id a es c s₂ (hframe ▸ hgood) hs₂ fun moment hreach => ?_
      exact hallowed moment (.head (.jump hb htick houtcome) hreach)
  | cons i insts ih =>
    rw [rest_cons]
    refine Exec.still_tick.bind_leaves hinv fun _ s₁ htick hs₁ => ?_
    have hstep := h.executes hn hgood hinv htick hallowed
    refine Exec.leaves_bind.mpr ⟨fun value s₂ hvalue => ?_, fun _ _ => hstep.of_error⟩
    refine ih (h.value hgood (by rwa [hs₁]) hvalue) (hstep.of_ok hvalue) fun moment hreach => ?_
    exact hallowed moment (.head (.execute htick hvalue) hreach)

/-- A run leaves memory as it is to be, if all its moments are allowed. -/
theorem run (n : Nat) : w.RunLeaves inv good allowed n := by
  induction n with
  | zero => exact fun _ _ _ _ _ _ hinv _ => hinv
  | succ n ih =>
    intro id a es c s hgood hinv hallowed
    rw [run_succ]
    refine (Exec.still_ofChecked _).bind_leaves hinv fun b s₁ hread _ => ?_
    obtain ⟨hb, rfl⟩ := Exec.ofChecked_eq_ok.mp hread
    refine (Exec.still_ofChecked _).bind_leaves hinv fun phis s₁ hread _ => ?_
    obtain ⟨hphis, rfl⟩ := Exec.ofChecked_eq_ok.mp hread
    refine (w.still_enteredPhis a c.frame c.source phis).bind_leaves hinv
      fun values s₂ hvalues hs₂ => ?_
    have hrest : ∀ moment, Relation.ReflTransGen w.Next ⟨id, a, n + 1, c.entering es,
        .within c.block (b.insts.drop phis.length) (setAll c.frame values), s₂⟩ moment →
        allowed moment := fun moment hreach =>
      hallowed moment (.head (.enter hb hphis hvalues) hreach)
    exact h.rest ih hb (h.phis hgood hvalues) (by rwa [hs₂]) hrest

end Sustained

end World

/-- The values that have been computed at a moment. -/
def Whereabouts.frame : Whereabouts → Frame
  | arriving c => c.frame
  | within _ _ frame => frame

/-- What is kept holds at a moment. -/
def Moment.Keeps (inv : Memory → Prop) (good : FuncId → Activation → Frame → Prop)
    (moment : Moment) : Prop :=
  good moment.id moment.activation moment.place.frame ∧ inv moment.store.memory

namespace World.Sustained

variable {w : World} {inv : Memory → Prop} {good : FuncId → Activation → Frame → Prop}
  {allowed : Moment → Prop} (h : w.Sustained inv good allowed) {moment moment' : Moment}
include h

/-- It is kept from one moment to the next. -/
theorem next (hnext : w.Next moment moment') (hkeeps : moment.Keeps inv good)
    (hallowed : ∀ later, Relation.ReflTransGen w.Next moment later → allowed later) :
    moment'.Keeps inv good := by
  obtain ⟨hgood, hinv⟩ := hkeeps
  cases hnext with
  | @enter id a n es c s s₁ b phis values hb hphis hvalues =>
    have hs₁ := (w.still_enteredPhis a c.frame c.source phis s).of_ok hvalues
    exact ⟨h.phis hgood hvalues, by rwa [← hs₁] at hinv⟩
  | @execute id a n es block i insts frame s s₁ s₂ value htick hstep =>
    have hs₁ := (Exec.still_tick s).of_ok htick
    exact ⟨h.value hgood (by rwa [← hs₁] at hinv) hstep,
      (h.executes (h.run n) hgood hinv htick hallowed).of_ok hstep⟩
  | @jump id a n es block b frame s s₁ s₂ c hb htick hterm =>
    obtain ⟨hframe, -, -⟩ := runTerminator_eq_jump hterm
    refine ⟨?_, (h.ends (h.run n) hb hgood hinv htick hallowed).of_ok hterm⟩
    change good id a c.frame
    rw [hframe]
    exact hgood
  | @call id callId a n es block entry i insts frame s s₁ s₂ callee args ret values f hkind htick
      htarget hf hentry =>
    have hs₁ := (Exec.still_tick s).of_ok htick
    have hs₂ := (w.still_target a frame callee args s₁).of_ok htarget
    exact ⟨h.start values hf, by rwa [← hs₁, ← hs₂] at hinv⟩
  | @invoke id callId a n es block entry normal unwind b frame s s₁ s₂ callee args values f hb hterm
      htick htarget hf hentry =>
    have hs₁ := (Exec.still_tick s).of_ok htick
    have hs₂ := (w.still_target a frame callee args s₁).of_ok htarget
    exact ⟨h.start values hf, by rwa [← hs₁, ← hs₂] at hinv⟩

/-- It is kept at every moment of a run. -/
theorem reaches (hreach : Relation.ReflTransGen w.Next moment moment')
    (hkeeps : moment.Keeps inv good)
    (hallowed : ∀ later, Relation.ReflTransGen w.Next moment later → allowed later) :
    moment'.Keeps inv good := by
  induction hreach with
  | refl => exact hkeeps
  | tail hbefore hnext ih =>
    exact h.next hnext ih fun later hlater => hallowed later (hbefore.trans hlater)

/-- A run that is started by a call by name keeps it at each of its moments. -/
theorem occurs {name : String} {args : List UInt64} {s : Store}
    (hallowed : ∀ later, w.Occurs name args s later → allowed later) (hinv : inv s.memory)
    (hoccurs : w.Occurs name args s moment) : moment.Keeps inv good := by
  obtain ⟨id, f, entry, hid, hf, hentry, hreach⟩ := hoccurs
  exact h.reaches hreach ⟨h.start args hf, hinv⟩ fun later hlater =>
    hallowed later ⟨id, f, entry, hid, hf, hentry, hlater⟩

/-- What the run leaves keeps it too. -/
theorem calls {name : String} {args : List UInt64} {s : Store}
    (hallowed : ∀ later, w.Occurs name args s later → allowed later) (hinv : inv s.memory)
    (hdeclared : ∀ id f, w.module.findFunction? name = some id → w.module.function id = .ok f →
      f.entryBlock? = none → (w.callDeclared f args).Leaves inv s) :
    (w.call name args).Leaves inv s := by
  cases hid : w.module.findFunction? name with
  | none =>
    rw [World.call, hid]
    exact hinv
  | some id =>
    have hcall := call_of_found hid args s
    unfold Exec.Leaves
    rw [hcall]
    change (w.enter (w.run (s.stepsLeft + 1)) id args).Leaves inv s
    refine (Exec.still_ofChecked _).bind_leaves hinv fun f s₁ hread _ => ?_
    obtain ⟨hf, rfl⟩ := Exec.ofChecked_eq_ok.mp hread
    cases hentry : f.entryBlock? with
    | none => exact hdeclared id f hid hf hentry
    | some entry =>
      exact h.run _ id ⟨f, args⟩ [] ⟨∅, none, entry⟩ s₁ (h.start args hf) hinv fun later hlater =>
        hallowed later ⟨id, f, entry, hid, hf, hentry, hlater⟩

end World.Sustained

/-! ## What lasts -/

namespace World

/-- What holds of memory lasts if neither the work on memory that the machine does itself nor a function
that stands in for a missing one can break it. -/
structure Lasting (w : World) (inv : Memory → Prop) : Prop where
  alloc : ∀ {memory} len, inv memory → inv (memory.after (Memory.alloc len))
  write : ∀ {memory} addr data, inv memory → inv (memory.after (Memory.write addr data))
  handler : ∀ {name handler}, w.handlers.lookup name = some handler →
    ∀ {memory} args, inv memory → inv (memory.after (handler args))

namespace Lasting

variable {w : World} {inv : Memory → Prop} {memory : Memory} {a : Activation} {frame : Frame}
  {s : Store} (h : w.Lasting inv)
include h

theorem writeWord (addr : UInt64) (size : Nat) (value : UInt64) (hinv : inv memory) :
    inv (memory.after (Memory.writeWord addr size value)) := by
  unfold Memory.writeWord
  split
  · exact hinv
  · exact h.write addr _ hinv

theorem copy (target source : UInt64) (len : Nat) (hinv : inv memory) :
    inv (memory.after (Memory.copy target source len)) := by
  cases hread : memory.read source len with
  | ok data =>
    have hcopy : memory.after (Memory.copy target source len) =
        memory.after (Memory.write target data.toList) := by
      simp only [Memory.after, Memory.copy, hread]
    exact hcopy ▸ h.write target _ hinv
  | error trap =>
    have hcopy : memory.after (Memory.copy target source len) = memory := by
      simp only [Memory.after, Memory.copy, hread]
    exact hcopy.symm ▸ hinv

theorem callDeclared (f : Function) (args : List UInt64) (hinv : inv s.memory) :
    (w.callDeclared f args).Leaves inv s := by
  have hmask : ∀ {x : Exec UInt64} {width : Nat}, x.Leaves inv s →
      (do return mask width (← x) : Exec UInt64).Leaves inv s := fun hx =>
    Exec.leaves_bind.mpr ⟨fun _ _ => hx.of_ok, fun _ _ => hx.of_error⟩
  cases hbuiltin : Builtin.ofName? f.name with
  | some builtin =>
    by_cases hcopy : builtin = .copy
    · subst hcopy
      unfold World.callDeclared
      dsimp only
      rw [hbuiltin]
      have hdone := Exec.leaves_access_of_after (h.copy ((args[0]?).getD 0) ((args[1]?).getD 0)
        ((args[2]?).getD 0).toNat hinv)
      exact hmask (Exec.leaves_bind.mpr ⟨fun _ _ => hdone.of_ok, fun _ _ => hdone.of_error⟩)
    · exact (still_callDeclared hbuiltin hcopy args).leaves hinv
  | none =>
    unfold World.callDeclared
    dsimp only
    rw [hbuiltin]
    dsimp only
    split
    · next handler hlookup =>
      exact hmask (Exec.leaves_access_of_after (h.handler hlookup args hinv))
    · exact (Exec.still_stop _).leaves hinv

theorem performCall (callee : Callee) (args : List Value) (hinv : inv s.memory) :
    (w.performCall w.alone a frame callee args).Leaves inv s := by
  rw [performCall_eq]
  refine (w.still_target a frame callee args).bind_leaves hinv fun ⟨id, values⟩ s₁ _ hs₁ => ?_
  refine (Exec.still_ofChecked _).bind_leaves (hs₁ ▸ hinv) fun f s₂ _ hs₂ => ?_
  split
  · exact (Exec.still_pure _).leaves (hs₂ ▸ hs₁ ▸ hinv)
  · exact h.callDeclared f values (hs₂ ▸ hs₁ ▸ hinv)

/-- What lasts is left by an instruction. -/
theorem step (i : InstId) (hinv : inv s.memory) : (w.step w.alone a frame i).Leaves inv s := by
  cases hkind : a.function.kind i with
  | error fault =>
    unfold World.step
    rw [hkind]
    exact hinv
  | ok kind =>
    by_cases htouches : kind.touches = true
    · unfold World.step
      rw [hkind, Exec.ofChecked_ok, pure_bind]
      have heval := w.still_eval a frame
      cases kind with
      | store value ptr =>
        refine (Exec.still_ofChecked _).bind_leaves hinv fun ty s₁ _ hs₁ => ?_
        refine (heval value).bind_leaves (hs₁ ▸ hinv) fun bits s₂ _ hs₂ => ?_
        refine (heval ptr).bind_leaves (hs₂ ▸ hs₁ ▸ hinv) fun addr s₃ _ hs₃ => ?_
        have hwrite := Exec.leaves_access_of_after (s := s₃)
          (h.writeWord addr ty.storeSize bits (hs₃ ▸ hs₂ ▸ hs₁ ▸ hinv))
        exact Exec.leaves_bind.mpr ⟨fun _ _ => hwrite.of_ok, fun _ _ => hwrite.of_error⟩
      | alloca size => exact Exec.leaves_access_of_after (h.alloc size hinv)
      | call callee args ret => exact h.performCall callee args hinv
      | _ => cases htouches
    · exact (still_step hkind (by simpa using htouches)).leaves hinv

/-- What lasts is left by the end of a block. -/
theorem runTerminator (block : BlockId) (term : Terminator) (hinv : inv s.memory) :
    (w.runTerminator w.alone a frame block term).Leaves inv s := by
  cases term with
  | invoke callee args normal unwind =>
    have hcall : (w.performCall w.alone a frame callee args).Leaves inv s :=
      h.performCall callee args hinv
    exact Exec.leaves_bind.mpr ⟨fun _ _ hvalue => hcall.of_ok hvalue, fun _ _ => hcall.of_error⟩
  | _ => exact (still_runTerminator rfl).leaves hinv

theorem sustained : w.Sustained inv (fun _ _ _ => True) fun _ => True where
  start := fun _ _ => trivial
  phis := fun _ _ => trivial
  value := fun _ _ _ => trivial
  step := fun _ hinv _ htick => h.step _ ((Exec.still_tick _).of_ok htick ▸ hinv)
  terminator := fun _ hinv _ _ htick => h.runTerminator _ _ ((Exec.still_tick _).of_ok htick ▸ hinv)

/-- What lasts holds at every moment of a run if it does at the start. -/
theorem occurs {name : String} {args : List UInt64} {moment : Moment} (hinv : inv s.memory)
    (hoccurs : w.Occurs name args s moment) : inv moment.store.memory :=
  (h.sustained.occurs (fun _ _ => trivial) hinv hoccurs).2

end Lasting

end World

end EdgeProbe
