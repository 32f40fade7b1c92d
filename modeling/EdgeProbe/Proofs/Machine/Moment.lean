import EdgeProbe.Proofs.Machine.Blame

/-!
# The moments of a run

A run is followed from moment to moment: a block is entered, its instructions are executed one by
one, an edge is taken, a function is called. `World.Next` leads from a moment to those that come
next, into calls as well. A trap that blames the module is raised at one of the moments of the run,
by what the activation does there itself (`World.call_raises`).
-/

namespace EdgeProbe

/-- What an activation is about to do: enter a block, or go on with what is left of one. -/
inductive Whereabouts where
  | arriving (c : Cursor)
  | within (block : BlockId) (insts : List InstId) (frame : Frame)

/-- A moment of a run. -/
structure Moment where
  /-- The function that the activation is of, as the module numbers it. -/
  id : FuncId
  activation : Activation
  fuel : Nat
  /-- The blocks that edges have entered so far in this activation. -/
  entered : List BlockId
  place : Whereabouts
  store : Store

/-- The moment when a function is called. -/
def Moment.start (id : FuncId) (f : Function) (entry : BlockId) (args : List UInt64) (fuel : Nat)
    (s : Store) : Moment where
  id := id
  activation := ⟨f, args⟩
  fuel := fuel
  entered := []
  place := .arriving ⟨∅, none, entry⟩
  store := s

/-- The blocks that edges have entered once a block is. -/
def Cursor.entering (c : Cursor) (entered : List BlockId) : List BlockId :=
  if c.source.isSome then c.block :: entered else entered

namespace World

variable (w : World)

/-- The function that a call leads to, and its arguments. -/
def target (a : Activation) (frame : Frame) (callee : Callee) (args : List Value) :
    Exec (FuncId × List UInt64) := do
  let values ← args.mapM (w.eval a frame)
  match callee with
  | .direct id => return (id, values)
  | .indirect target =>
    let addr ← w.eval a frame target
    match w.functionAt? addr with
    | some id => return (id, values)
    | none => Exec.stop (.outOfBounds addr 0)

theorem performCall_eq (caller : Caller) (a : Activation) (frame : Frame) (callee : Callee)
    (args : List Value) :
    w.performCall caller a frame callee args = (do
      let call ← w.target a frame callee args
      caller call.1 call.2) := by
  cases callee with
  | direct id => simp only [performCall, target, bind_assoc, pure_bind]
  | indirect target =>
    simp only [performCall, World.target, bind_assoc]
    congr 1
    funext values
    congr 1
    funext addr
    cases w.functionAt? addr with
    | some id => simp only [pure_bind]
    | none => rfl

/-- One moment comes right after another one. -/
inductive Next : Moment → Moment → Prop
  | enter {id : FuncId} {a : Activation} {n : Nat} {es : List BlockId} {c : Cursor} {s s₁ : Store}
      {b : Block} {phis : List InstId} {values : List (InstId × UInt64)}
      (hb : a.function.block c.block = .ok b) (hphis : a.function.phis c.block = .ok phis)
      (hvalues : w.enteredPhis a c.frame c.source phis s = .ok values s₁) :
    Next ⟨id, a, n + 1, es, .arriving c, s⟩
      ⟨id, a, n + 1, c.entering es,
        .within c.block (b.insts.drop phis.length) (setAll c.frame values), s₁⟩
  | execute {id : FuncId} {a : Activation} {n : Nat} {es : List BlockId} {block : BlockId}
      {i : InstId} {insts : List InstId} {frame : Frame} {s s₁ s₂ : Store} {value : UInt64}
      (htick : Exec.tick s = .ok () s₁)
      (hstep : w.step (w.enter (w.run n)) a frame i s₁ = .ok value s₂) :
    Next ⟨id, a, n + 1, es, .within block (i :: insts) frame, s⟩
      ⟨id, a, n + 1, es, .within block insts (frame.insert i value), s₂⟩
  | jump {id : FuncId} {a : Activation} {n : Nat} {es : List BlockId} {block : BlockId} {b : Block}
      {frame : Frame} {s s₁ s₂ : Store} {c : Cursor}
      (hb : a.function.block block = .ok b) (htick : Exec.tick s = .ok () s₁)
      (hterm : w.runTerminator (w.enter (w.run n)) a frame block b.term s₁ = .ok (.jump c) s₂) :
    Next ⟨id, a, n + 1, es, .within block [] frame, s⟩ ⟨id, a, n, es, .arriving c, s₂⟩
  | call {id callId : FuncId} {a : Activation} {n : Nat} {es : List BlockId} {block entry : BlockId}
      {i : InstId} {insts : List InstId} {frame : Frame} {s s₁ s₂ : Store} {callee : Callee}
      {args : List Value} {ret : Ty} {values : List UInt64} {f : Function}
      (hkind : a.function.kind i = .ok (.call callee args ret)) (htick : Exec.tick s = .ok () s₁)
      (htarget : w.target a frame callee args s₁ = .ok (callId, values) s₂)
      (hf : w.module.function callId = .ok f) (hentry : f.entryBlock? = some entry) :
    Next ⟨id, a, n + 1, es, .within block (i :: insts) frame, s⟩
      (.start callId f entry values n s₂)
  | invoke {id callId : FuncId} {a : Activation} {n : Nat} {es : List BlockId}
      {block entry normal unwind : BlockId} {b : Block} {frame : Frame} {s s₁ s₂ : Store}
      {callee : Callee} {args : List Value} {values : List UInt64} {f : Function}
      (hb : a.function.block block = .ok b) (hterm : b.term = .invoke callee args normal unwind)
      (htick : Exec.tick s = .ok () s₁)
      (htarget : w.target a frame callee args s₁ = .ok (callId, values) s₂)
      (hf : w.module.function callId = .ok f) (hentry : f.entryBlock? = some entry) :
    Next ⟨id, a, n + 1, es, .within block [] frame, s⟩ (.start callId f entry values n s₂)

/-- The moment comes in the run that a call by name starts. -/
def Occurs (name : String) (args : List UInt64) (s : Store) (moment : Moment) : Prop :=
  ∃ id f entry, w.module.findFunction? name = some id ∧ w.module.function id = .ok f ∧
    f.entryBlock? = some entry ∧
    Relation.ReflTransGen w.Next (.start id f entry args (s.stepsLeft + 1) s) moment

/-- What the activation does at a moment ends in a trap, whatever calls would do. -/
def Raises (moment : Moment) (trap : Trap) : Prop :=
  match moment.place with
  | .arriving c => ∃ phis s, moment.activation.function.phis c.block = .ok phis ∧
    w.enteredPhis moment.activation c.frame c.source phis moment.store = .error (.trap trap) s
  | .within _ (i :: _) frame => ∃ s₁ s₂, Exec.tick moment.store = .ok () s₁ ∧
    ∀ caller, w.step caller moment.activation frame i s₁ = .error (.trap trap) s₂
  | .within block [] frame => ∃ b s₁ s₂, moment.activation.function.block block = .ok b ∧
    Exec.tick moment.store = .ok () s₁ ∧
    ∀ caller, w.runTerminator caller moment.activation frame block b.term s₁ =
      .error (.trap trap) s₂

variable {w} {a : Activation} {frame : Frame} {caller : Caller} {trap : Trap} {s s' : Store}

theorem step_of_not_call {id : InstId} {kind : InstKind} (hkind : a.function.kind id = .ok kind)
    (hcall : kind.isCall = false) (caller' : Caller) :
    w.step caller' a frame id = w.step caller a frame id := by
  unfold step
  rw [hkind]
  cases kind with
  | call callee args ret => cases hcall
  | _ => rfl

theorem runTerminator_of_not_invoke {block : BlockId} {term : Terminator}
    (hterm : ∀ callee args normal unwind, term ≠ .invoke callee args normal unwind)
    (caller' : Caller) :
    w.runTerminator caller' a frame block term = w.runTerminator caller a frame block term := by
  unfold runTerminator
  cases term with
  | invoke callee args normal unwind => exact absurd rfl (hterm callee args normal unwind)
  | ret value => cases value <;> rfl
  | _ => rfl

/-- What a run of some fuel raises is raised at one of its moments. -/
def RunRaises (w : World) (trap : Trap) (n : Nat) : Prop :=
  ∀ id a es c s s', w.run n a c s = .error (.trap trap) s' →
    ∃ moment, Relation.ReflTransGen w.Next ⟨id, a, n, es, .arriving c, s⟩ moment ∧
      w.Raises moment trap

section Raises

variable (hw : w.HandlersBlameless) (ht : trap.isMalformed = true)
include hw ht

theorem enter_raises {n : Nat} (ih : w.RunRaises trap n) {id : FuncId} {args : List UInt64}
    (h : w.enter (w.run n) id args s = .error (.trap trap) s') :
    ∃ f entry moment, w.module.function id = .ok f ∧ f.entryBlock? = some entry ∧
      Relation.ReflTransGen w.Next (.start id f entry args n s) moment ∧
      w.Raises moment trap := by
  unfold enter at h
  obtain ⟨f, hf, hgo⟩ := Exec.ofChecked_bind_eq_trap.mp h
  cases hentry : f.entryBlock? with
  | none =>
    rw [hentry] at hgo
    have hnone : (w.callDeclared f args).BlamesOnly fun _ => False := callDeclared_blames hw
    exact (hnone s trap s' hgo ht).elim
  | some entry =>
    rw [hentry] at hgo
    obtain ⟨moment, hreach, hraises⟩ := ih id _ [] _ _ _ hgo
    exact ⟨f, entry, moment, hf, hentry, hreach, hraises⟩

theorem performCall_raises {n : Nat} (ih : w.RunRaises trap n) {callee : Callee}
    {args : List Value} (h : w.performCall (w.enter (w.run n)) a frame callee args s =
      .error (.trap trap) s') :
    (∀ caller, w.performCall caller a frame callee args s = .error (.trap trap) s') ∨
      ∃ id values s₁ f entry moment, w.target a frame callee args s = .ok (id, values) s₁ ∧
        w.module.function id = .ok f ∧ f.entryBlock? = some entry ∧
        Relation.ReflTransGen w.Next (.start id f entry values n s₁) moment ∧
        w.Raises moment trap := by
  rw [performCall_eq] at h
  obtain htarget | ⟨⟨id, values⟩, s₁, htarget, hcall⟩ := Exec.bind_eq_error.mp h
  · left
    intro caller
    rw [performCall_eq]
    exact Exec.bind_eq_error.mpr (.inl htarget)
  · right
    obtain ⟨f, entry, moment, hf, hentry, hreach, hraises⟩ := enter_raises hw ht ih hcall
    exact ⟨id, values, s₁, f, entry, moment, htarget, hf, hentry, hreach, hraises⟩

theorem rest_raises {n : Nat} (ih : w.RunRaises trap n) {id : FuncId} {es : List BlockId}
    {block : BlockId} {b : Block} {insts : List InstId} (hb : a.function.block block = .ok b)
    (h : w.rest n a block b.term insts frame s = .error (.trap trap) s') :
    ∃ moment, Relation.ReflTransGen w.Next ⟨id, a, n + 1, es, .within block insts frame, s⟩ moment ∧
      w.Raises moment trap := by
  induction insts generalizing frame s with
  | nil =>
    rw [rest_nil] at h
    obtain hout | ⟨⟨⟩, s₁, htick, h⟩ := Exec.bind_eq_error.mp h
    · exact absurd ht (by simp [Exec.tick_blameless hout])
    obtain hend | ⟨outcome, s₂, hend, h⟩ := Exec.bind_eq_error.mp h
    · by_cases hinvoke : ∃ callee args normal unwind, b.term = .invoke callee args normal unwind
      · obtain ⟨callee, args, normal, unwind, hterm⟩ := hinvoke
        have hinvoke : ∀ caller, w.runTerminator caller a frame block b.term = (do
            let _ ← w.performCall caller a frame callee args
            return .jump ⟨frame, some block, normal⟩) := by
          intro caller
          rw [hterm]
          rfl
        rw [hinvoke] at hend
        obtain hcall | ⟨value, s₂, -, hret⟩ := Exec.bind_eq_error.mp hend
        · obtain hraises | ⟨callId, values, s₂, f, entry, moment, htarget, hf, hentry, hreach,
            hraises⟩ := performCall_raises hw ht ih hcall
          · refine ⟨_, .refl, b, s₁, s', hb, htick, fun caller => ?_⟩
            rw [hinvoke]
            exact Exec.bind_eq_error.mpr (.inl (hraises caller))
          · exact ⟨moment, .head (.invoke hb hterm htick htarget hf hentry) hreach, hraises⟩
        · cases hret
      · refine ⟨_, .refl, b, s₁, s', hb, htick, fun caller => ?_⟩
        rw [runTerminator_of_not_invoke (by simpa using hinvoke) caller]
        exact hend
    · cases outcome with
      | result value => cases h
      | jump c =>
        obtain ⟨moment, hreach, hraises⟩ := ih id a es c s₂ s' h
        exact ⟨moment, .head (.jump hb htick hend) hreach, hraises⟩
  | cons i insts ihrest =>
    rw [rest_cons] at h
    obtain hout | ⟨⟨⟩, s₁, htick, h⟩ := Exec.bind_eq_error.mp h
    · exact absurd ht (by simp [Exec.tick_blameless hout])
    obtain hstep | ⟨value, s₂, hstep, h⟩ := Exec.bind_eq_error.mp h
    · cases hkind : a.function.kind i with
      | error fault =>
        rw [step, hkind] at hstep
        cases hstep
      | ok kind =>
        by_cases hcall : kind.isCall = true
        · cases kind with
          | call callee args ret =>
            have hperform : ∀ caller, w.step caller a frame i =
                w.performCall caller a frame callee args := by
              intro caller
              rw [step, hkind]
              rfl
            rw [hperform] at hstep
            obtain hraises | ⟨callId, values, s₂, f, entry, moment, htarget, hf, hentry, hreach,
              hraises⟩ := performCall_raises hw ht ih hstep
            · refine ⟨_, .refl, s₁, s', htick, fun caller => ?_⟩
              rw [hperform]
              exact hraises caller
            · exact ⟨moment, .head (.call hkind htick htarget hf hentry) hreach, hraises⟩
          | _ => cases hcall
        · refine ⟨_, .refl, s₁, s', htick, fun caller => ?_⟩
          rw [step_of_not_call hkind (by simpa using hcall) caller]
          exact hstep
    · obtain ⟨moment, hreach, hraises⟩ := ihrest h
      exact ⟨moment, .head (.execute htick hstep) hreach, hraises⟩

theorem run_raises (n : Nat) : w.RunRaises trap n := by
  induction n with
  | zero =>
    intro id a es c s s' h
    injection h with hcause
    injection hcause with htrap
    subst htrap
    cases ht
  | succ n ih =>
    intro id a es c s s' h
    rw [run_succ] at h
    obtain ⟨b, hb, h⟩ := Exec.ofChecked_bind_eq_trap.mp h
    obtain ⟨phis, hphis, h⟩ := Exec.ofChecked_bind_eq_trap.mp h
    obtain hvalues | ⟨values, s₁, hvalues, h⟩ := Exec.bind_eq_error.mp h
    · exact ⟨_, .refl, phis, s', hphis, hvalues⟩
    · obtain ⟨moment, hreach, hraises⟩ := rest_raises hw ht ih hb h
      exact ⟨moment, .head (.enter hb hphis hvalues) hreach, hraises⟩

/-- A trap that blames the module is raised at a moment of the run. -/
theorem call_raises {name : String} {args : List UInt64}
    (h : w.call name args s = .error (.trap trap) s') :
    ∃ moment, w.Occurs name args s moment ∧ w.Raises moment trap := by
  unfold call at h
  cases hid : w.module.findFunction? name with
  | none =>
    rw [hid] at h
    injection h with hcause
    injection hcause with htrap
    subst htrap
    cases ht
  | some id =>
    rw [hid] at h
    have h : w.enter (w.run (s.stepsLeft + 1)) id args s = .error (.trap trap) s' := h
    obtain ⟨f, entry, moment, hf, hentry, hreach, hraises⟩ :=
      enter_raises hw ht (run_raises hw ht (s.stepsLeft + 1)) h
    exact ⟨moment, ⟨id, f, entry, hid, hf, hentry, hreach⟩, hraises⟩

end Raises

end World

end EdgeProbe
