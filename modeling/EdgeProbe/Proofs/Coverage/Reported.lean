import EdgeProbe.Proofs.Coverage.Classic
import EdgeProbe.Proofs.Machine.Fixed
import EdgeProbe.Proofs.Probe.Firing

/-!
# What probes report

In a module that carries probes each run adds the identifiers of the probes at the sites that it
passes to the trace, in this order, if the program itself does not call the trace hook. Main
statement: `World.Carries.reports`.
-/

namespace EdgeProbe

namespace World

variable (w : World)

/-- The function that is called, if there is one, is called something else. -/
def CallsOther (name : String) (a : Activation) (frame : Frame) (callee : Callee)
    (args : List Value) (s : Store) : Prop :=
  ∀ id values s' f, w.target a frame callee args s = .ok (id, values) s' →
    w.module.function id = .ok f → f.name ≠ name

/-- At this moment the program does not call a function of this name. -/
def ProgramAvoids (name : String) (program : FuncId → InstId → Prop) (moment : Moment) : Prop :=
  match moment.place with
  | .arriving _ => True
  | .within _ (i :: _) frame => program moment.id i → ∀ callee args ret,
    moment.activation.function.kind i = .ok (.call callee args ret) →
      w.CallsOther name moment.activation frame callee args moment.store
  | .within block [] frame => ∀ b callee args normal unwind,
    moment.activation.function.block block = .ok b → b.term = .invoke callee args normal unwind →
      w.CallsOther name moment.activation frame callee args moment.store

/-- The functions of the world carry the probes of a plan. -/
structure Carries (w : World) (hooks : Hooks) (hook : FuncId) (base : FuncId → Nat)
    (plan : List PlannedProbe) (stands : FuncId → List Stand) : Prop where
  traces : hooks.trace = some hook
  declared : w.module.function hook = .ok (.declare Symbol.traceHook [.i32] .void)
  distinct : (plan.map (·.site)).Nodup
  placed : ∀ id, (stands id).map Stand.planned =
    (plan.filter fun planned => planned.site.function == id).reverse
  functions : ∀ id f₁, w.module.function id = .ok f₁ → f₁.isDeclaration = false →
    ∃ f : Function, f.Equipped hooks (base id) id (stands id) f₁

variable {w} {a : Activation} {frame : Frame} {s s₁ s₂ s' : Store}

/-- Whom a call reaches does not depend on the store. -/
theorem CallsOther.ne {name : String} {callee : Callee} {args : List Value}
    (h : w.CallsOther name a frame callee args s) {id : FuncId} {values : List UInt64} {f : Function}
    (htarget : w.target a frame callee args s₁ = .ok (id, values) s₂)
    (hf : w.module.function id = .ok f) : f.name ≠ name :=
  h id values s f (((w.fixed_target a frame callee args).eq_ok htarget).2 s) hf

theorem toUInt32_mask (id : Nat) : (mask 32 (UInt64.ofNat id)).toUInt32 = UInt32.ofNat id := by
  apply UInt32.toNat_inj.mp
  rw [UInt64.toNat_toUInt32, toNat_mask, UInt64.toNat_ofNat', UInt32.toNat_ofNat']
  omega

/-- The trace hook adds what it is called with to the trace. -/
theorem trace_of_hook {id : Nat} {value : UInt64}
    (h : w.callDeclared (.declare Symbol.traceHook [.i32] .void) [mask 32 (UInt64.ofNat id)] s =
      .ok value s') : s' = { s with trace := UInt32.ofNat id :: s.trace } := by
  have hbuiltin : Builtin.ofName? (Function.declare Symbol.traceHook [.i32] .void).name =
      some .trace := by decide
  unfold callDeclared at h
  rw [hbuiltin] at h
  obtain ⟨result, s₁, hrun, hend⟩ := Exec.bind_eq_ok.mp h
  obtain ⟨u, s₂, hreport, hrun⟩ := Exec.bind_eq_ok.mp hrun
  rw [← (EStateM.Result.ok.inj hend).2, ← (EStateM.Result.ok.inj hrun).2,
    ← (EStateM.Result.ok.inj hreport).2, ← toUInt32_mask]
  rfl

/-- In a sound activation the rest of a block is a part of a live one. -/
theorem SoundMoment.exists_before {id : FuncId} {n : Nat} {es : List BlockId} {block : BlockId}
    {insts : List InstId} (h : w.SoundMoment ⟨id, a, n, es, .within block insts frame, s⟩)
    (htidy : a.function.Tidy) : block ∈ a.function.layout ∧ ∃ blk phis before,
      a.function.block block = .ok blk ∧ a.function.phis block = .ok phis ∧
        blk.insts = before ++ insts ∧ phis.length ≤ before.length := by
  obtain ⟨trail, hpath, -, blk, phis, before, hblk, hphis, hinsts, hlength, -⟩ := h.place
  exact ⟨htidy.closed.mem_layout hpath, blk, phis, before, hblk, hphis, hinsts, hlength⟩

namespace Carries

variable {hooks : Hooks} {hook : FuncId} {base : FuncId → Nat} {plan : List PlannedProbe}
  {stands : FuncId → List Stand} {position : Nat}
  (h : w.Carries hooks hook base plan stands)
include h

/-- The first instruction of a probe calls the trace hook, and no other one calls anything. -/
theorem code_cases {s : Stand} {k : Nat} {kind : InstKind}
    (hk : (s.code hooks)[k]? = some kind) :
    k = 0 ∧ kind = .call (.direct hook) [.ofWord 32 (UInt64.ofNat s.planned.id)] .void ∨
      0 < k ∧ kind.isCall = false := by
  have hlead : hooks.traceCode s.planned.id =
      [.call (.direct hook) [.ofWord 32 (UInt64.ofNat s.planned.id)] .void] := by
    rw [Hooks.traceCode, h.traces]
  rw [Stand.code, Hooks.probeCode, hlead] at hk
  cases k with
  | zero => exact .inl ⟨rfl, (Option.some.inj hk).symm⟩
  | succ k =>
    rw [List.singleton_append, List.getElem?_cons_succ] at hk
    have hmem := List.mem_of_getElem? hk
    exact .inr ⟨k.succ_pos, (Hooks.plain_of_mem_countCode hmem).2.2⟩

theorem function {id : FuncId} {f₁ : Function} {b : BlockId}
    (hid : w.module.function id = .ok f₁) (hb : b ∈ f₁.layout) :
    ∃ f : Function, f.Equipped hooks (base id) id (stands id) f₁ := by
  refine h.functions id f₁ hid ?_
  rw [Function.isDeclaration, List.isEmpty_eq_false_iff]
  exact List.ne_nil_of_mem hb

/-- What the blocks of a function fire is planned for the sites that lead to them. -/
theorem work_entry (hposition : ∀ id, ∀ s ∈ stands id, position < (s.code hooks).length)
    {id : FuncId} {f₁ : Function} {entry : BlockId} (hid : w.module.function id = .ok f₁)
    (hentry : f₁.entryBlock? = some entry) :
    (f₁.work entry).flatMap (Stand.firing (stands id) position) = markOf plan (.entry id) := by
  obtain ⟨f, hf⟩ := h.function hid (Function.mem_layout_of_entryBlock? hentry)
  rw [hf.work_entry hf.source hf.rooted hf.toPlanned (hposition id) (hf.starts ▸ hentry),
    markOf_eq h.distinct (h.placed id) rfl]

theorem work_edge (hposition : ∀ id, ∀ s ∈ stands id, position < (s.code hooks).length)
    {id : FuncId} {f₁ : Function} {b target : BlockId} {blk : Block} {k : Nat}
    (hid : w.module.function id = .ok f₁) (hb : b ∈ f₁.layout) (hblk : f₁.block b = .ok blk)
    (hk : blk.term.successors[k]? = some target) :
    (f₁.work target).flatMap (Stand.firing (stands id) position) = markOf plan (.edge id b k) := by
  obtain ⟨f, hf⟩ := h.function hid hb
  rw [hf.work_edge hf.source hf.rooted hf.toPlanned (hposition id) hb hblk hk,
    markOf_eq h.distinct (h.placed id) rfl]

theorem code_pos (s : Stand) : 0 < (s.code hooks).length := by
  rw [Stand.code, Hooks.probeCode, Hooks.traceCode, h.traces]
  simp

/-- What is called by a probe is the trace hook, with the identifier of the probe. -/
theorem declared_cases {id callId : FuncId} {n : Nat} {es : List BlockId} {block : BlockId}
    {i : InstId} {insts : List InstId} {callee : Callee} {args : List Value} {ret : Ty}
    {values : List UInt64} {f₁ : Function}
    (hsound : w.SoundMoment ⟨id, a, n, es, .within block (i :: insts) frame, s⟩)
    (hkind : a.function.kind i = .ok (.call callee args ret))
    (htarget : w.target a frame callee args s₁ = .ok (callId, values) s₂)
    (hf : w.module.function callId = .ok f₁) :
    i.index < base id ∧ (∀ t ∈ stands id, i.index < t.first) ∧
        (∀ position, (i :: insts).flatMap (Stand.firing (stands id) position) = []) ∨
      ∃ s ∈ stands id, i = ⟨s.first⟩ ∧ f₁ = .declare Symbol.traceHook [.i32] .void ∧
        values = [mask 32 (UInt64.ofNat s.planned.id)] ∧ s₂ = s₁ := by
  obtain ⟨f, hcarries⟩ := h.functions id a.function hsound.known hsound.body
  obtain ⟨hlive, blk, phis, before, hblk, -, hinsts, -⟩ := hsound.exists_before hcarries.tidy
  have hlisted : a.function.Listed i block before.length :=
    ⟨hlive, blk, hblk, by rw [hinsts]; simp⟩
  obtain ⟨hlt, hprogram | hphi | hpad⟩ | ⟨s, hs, k, hk, rfl⟩ :=
    hcarries.listed_cases hlisted hkind
  · exact .inl ⟨hprogram, fun t ht => hlt.trans_le (hcarries.bounds t ht).1, fun position =>
      hcarries.due_eq_nil hlive hblk hinsts hlt hkind rfl nofun⟩
  · cases hphi
  · cases hpad
  · obtain ⟨rfl, heq⟩ | ⟨-, hcall⟩ := h.code_cases hk
    · obtain ⟨rfl, rfl, -⟩ := InstKind.call.inj heq
      obtain ⟨hcall, rfl⟩ := EStateM.Result.ok.inj htarget
      obtain ⟨rfl, rfl⟩ := Prod.mk.inj hcall
      exact .inr ⟨s, hs, rfl, Except.ok.inj (hf.symm.trans h.declared), rfl, rfl⟩
    · cases hcall

/-- The trace grows by the identifiers of the probes at the sites that a run passes. -/
theorem reports : w.Accounts
    (fun moment => w.SoundMoment moment ∧
      w.ProgramAvoids Symbol.traceHook (fun id i => i.index < base id) moment)
    (fun _ => True) (fun id => Stand.firing (stands id) 0) (markOf plan)
    (fun ids s s' => s'.trace = (ids.map UInt32.ofNat).reverse ++ s.trace) where
  append := by
    intro xs ys s s₁ s₂ hxs hys
    rw [hys, hxs, List.map_append, List.reverse_append, List.append_assoc]
  entry hid hentry := h.work_entry (fun _ s _ => h.code_pos s) hid hentry
  edge := by
    rintro id a n es block frame s b k target ⟨hsound, -⟩ hb hk
    obtain ⟨f, hcarries⟩ := h.functions id a.function hsound.known hsound.body
    obtain ⟨hlive, -⟩ := hsound.exists_before hcarries.tidy
    exact h.work_edge (fun _ s _ => h.code_pos s) hsound.known hlive hb hk
  enter := by
    intro id a n es c s s₁ b phis values _ _ _ _ hvalues
    obtain rfl := ((w.fixed_enteredPhis a c.frame c.source phis).eq_ok hvalues).1
    exact ⟨rfl, trivial⟩
  execute := by
    rintro id a n es block i insts frame s s₁ s₂ kind value ⟨hsound, -⟩ - htick hkind hcall hstep
    obtain ⟨f, hcarries⟩ := h.functions id a.function hsound.known hsound.body
    have hnone : Stand.firing (stands id) 0 i = [] := by
      refine Stand.firing_eq_nil fun t ht heq => ?_
      have hcode := List.getElem?_eq_getElem (h.code_pos t)
      subst heq
      obtain rfl := Except.ok.inj (hkind.symm.trans (hcarries.code t ht 0 _ hcode))
      obtain ⟨-, heq⟩ | ⟨hlt, -⟩ := h.code_cases hcode
      · rw [heq] at hcall
        cases hcall
      · exact absurd hlt (lt_irrefl 0)
    refine ⟨?_, trivial⟩
    rw [hnone, trace_of_step hkind hcall hstep, (Exec.tick_eq htick).2]
    rfl
  declared := by
    rintro id callId a n es block i insts frame s s₁ s₂ s₃ callee args ret values f value
      ⟨hsound, havoids⟩ - htick hkind htarget hf hentry hcall
    refine ⟨?_, trivial⟩
    have hs₁ : s₁.trace = s.trace := by rw [(Exec.tick_eq htick).2]
    obtain ⟨hprogram, -, hdue⟩ | ⟨t, ht, rfl, rfl, rfl, rfl⟩ :=
      h.declared_cases hsound hkind htarget hf
    · have hne : f.name ≠ Symbol.traceHook :=
        (havoids hprogram callee args ret hkind).ne htarget hf
      have hnone := hdue 0
      rw [List.flatMap_cons, List.append_eq_nil_iff] at hnone
      rw [hnone.1, trace_of_callDeclared hne hcall,
        ((w.fixed_target a frame callee args).eq_ok htarget).1, hs₁]
      rfl
    · obtain ⟨g, hcarries⟩ := h.functions id a.function hsound.known hsound.body
      have hfires := hcarries.firing_code ht (h.code_pos t) (h.code_pos t)
      rw [if_pos rfl] at hfires
      rw [trace_of_hook hcall, hs₁]
      change _ = ((Stand.firing (stands id) 0 ⟨t.first + 0⟩).map UInt32.ofNat).reverse ++ s.trace
      rw [hfires]
      rfl
  call := by
    rintro id callId a n es block entry i insts frame s s₁ s₂ callee args ret values f ⟨hsound, -⟩ -
      htick hkind htarget hf hentry
    obtain ⟨-, -, hdue⟩ | ⟨t, -, -, rfl, -⟩ := h.declared_cases hsound hkind htarget hf
    · refine ⟨hdue 0, ?_, trivial, fun _ _ _ _ => trivial⟩
      rw [((w.fixed_target a frame callee args).eq_ok htarget).1, (Exec.tick_eq htick).2]
      rfl
    · cases hentry
  branch := by
    intro id a n es block b frame s s₁ s₂ c _ _ _ htick hcalls hterm
    refine ⟨?_, trivial⟩
    rw [((fixed_runTerminator hcalls).eq_ok hterm).1, (Exec.tick_eq htick).2]
    rfl
  invokeDeclared := by
    rintro id callId a n es block normal unwind b frame s s₁ s₂ s₃ callee args values f value
      ⟨-, havoids⟩ - hb hterm htick htarget hf - hcall
    refine ⟨?_, trivial⟩
    have hne : f.name ≠ Symbol.traceHook :=
      (havoids b callee args normal unwind hb hterm).ne htarget hf
    rw [trace_of_callDeclared hne hcall, ((w.fixed_target a frame callee args).eq_ok htarget).1,
      (Exec.tick_eq htick).2]
    rfl
  invoke := by
    intro id callId a n es block entry normal unwind b frame s s₁ s₂ callee args values f _ _ _ _
      htick htarget _ _
    refine ⟨?_, trivial, fun _ _ _ => trivial⟩
    rw [((w.fixed_target a frame callee args).eq_ok htarget).1, (Exec.tick_eq htick).2]
    rfl
  result := by
    intro id a n es block b frame s s₁ s₂ v _ _ _ htick hterm
    rw [((fixed_runTerminator (calls_of_result hterm)).eq_ok hterm).1, (Exec.tick_eq htick).2]
    rfl

end Carries

end World

end EdgeProbe
