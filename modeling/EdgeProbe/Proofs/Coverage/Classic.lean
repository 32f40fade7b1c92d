import EdgeProbe.Proofs.Code.Changes
import EdgeProbe.Proofs.Coverage.Arena
import EdgeProbe.Proofs.Coverage.Layout
import EdgeProbe.Proofs.Machine.Sustained

/-!
# Classic probes stay inside the map

A classic probe mixes its slot with what the probe before it has left behind, which is half a slot
of that one. Both lie below the power of two that slots are drawn for, so what they are mixed to
does. This is kept from probe to probe as long as nothing else writes the two words that probes
rely on. Main statement: `World.Counts.sustained`.
-/

namespace EdgeProbe

namespace Function

variable {f : Function} {hooks : Hooks} {area previous : GlobalId} {first slot : Nat}

/-- The code that counts in classic mode is there from an instruction on. -/
structure ClassicAt (f : Function) (area previous : GlobalId) (first slot : Nat) : Prop where
  base : f.kind ⟨first⟩ = .ok (.load .ptr (.global area))
  last : f.kind ⟨first + 1⟩ = .ok (.load .i32 (.global previous))
  mixed : f.kind ⟨first + 2⟩ =
    .ok (.binary .xor (.inst ⟨first + 1⟩) (.ofWord 32 (UInt64.ofNat slot)))
  wide : f.kind ⟨first + 3⟩ = .ok (.cast .zext (.inst ⟨first + 2⟩) 64)
  counter : f.kind ⟨first + 4⟩ = .ok (.gep (.inst ⟨first⟩) (.inst ⟨first + 3⟩))
  count : f.kind ⟨first + 5⟩ = .ok (.load .i8 (.inst ⟨first + 4⟩))
  more : f.kind ⟨first + 6⟩ = .ok (.binary .add (.inst ⟨first + 5⟩) (.ofWord 8 1))
  bump : f.kind ⟨first + 7⟩ = .ok (.store (.inst ⟨first + 6⟩) (.inst ⟨first + 4⟩))
  leave : f.kind ⟨first + 8⟩ =
    .ok (.store (.ofWord 32 (UInt64.ofNat (slot / 2))) (.global previous))

theorem CountsAt.classic (h : f.CountsAt hooks first slot)
    (hprevious : hooks.previous = some previous) : f.ClassicAt hooks.area previous first slot := by
  have hcode : ∀ (k : Nat) kind, (hooks.countCode first slot)[k]? = some kind →
      f.kind ⟨first + k⟩ = .ok kind := h
  rw [Hooks.countCode, hprevious] at hcode
  exact {
    base := hcode 0 _ rfl
    last := hcode 1 _ rfl
    mixed := hcode 2 _ rfl
    wide := hcode 3 _ rfl
    counter := hcode 4 _ rfl
    count := hcode 5 _ rfl
    more := hcode 6 _ rfl
    bump := hcode 7 _ rfl
    leave := hcode 8 _ rfl }

end Function

theorem Exec.ofStop_eq_ok {α : Type} {x : Except Stop α} {s s' : Store} {value : α}
    (h : ofStop x s = .ok value s') : x = .ok value ∧ s' = s := by
  cases x with
  | ok found =>
    obtain ⟨rfl, rfl⟩ := EStateM.Result.ok.inj h
    exact ⟨rfl, rfl⟩
  | error cause => cases h

namespace World

variable {w : World} {a : Activation} {frame : Frame} {s s' : Store}

theorem eval_inst_eq_ok {id : InstId} {value : UInt64}
    (h : w.eval a frame (.inst id) s = .ok value s') : frame[id]? = some value ∧ s' = s := by
  rw [eval] at h
  cases hfound : frame[id]? with
  | some found =>
    rw [hfound] at h
    obtain ⟨rfl, rfl⟩ := EStateM.Result.ok.inj h
    exact ⟨rfl, rfl⟩
  | none =>
    rw [hfound] at h
    cases h

theorem eval_global_eq_ok {id : GlobalId} {addr value : UInt64} (hid : w.globalAddr id = .ok addr)
    (h : w.eval a frame (.global id) s = .ok value s') : value = addr ∧ s' = s := by
  rw [eval, hid] at h
  obtain ⟨rfl, rfl⟩ := EStateM.Result.ok.inj h
  exact ⟨rfl, rfl⟩

theorem eval_ofWord_eq_ok {width : Nat} {word value : UInt64}
    (h : w.eval a frame (.ofWord width word) s = .ok value s') : value = mask width word ∧ s' = s := by
  obtain ⟨rfl, rfl⟩ := EStateM.Result.ok.inj h
  exact ⟨rfl, rfl⟩

section

variable {caller : Caller} {i : InstId} {value : UInt64}

/-- A load yields what is at the address of its operand. -/
theorem step_load_eq_ok {ty : Ty} {ptr : Value} (hkind : a.function.kind i = .ok (.load ty ptr))
    (h : w.step caller a frame i s = .ok value s') : ∃ addr raw s₁,
      w.eval a frame ptr s = .ok addr s₁ ∧ s₁.memory.readWord addr ty.storeSize = .ok raw ∧
        (value = raw ∨ ∃ width, value = mask width raw) ∧ (ty = .ptr → value = raw) := by
  rw [step, hkind, Exec.ofChecked_ok, pure_bind] at h
  obtain ⟨addr, s₁, haddr, h⟩ := Exec.bind_eq_ok.mp h
  obtain ⟨read, s₂, hread, h⟩ := Exec.bind_eq_ok.mp h
  obtain ⟨rfl, rfl⟩ := EStateM.Result.ok.inj hread
  obtain ⟨raw, s₃, hraw, hend⟩ := Exec.bind_eq_ok.mp h
  refine ⟨addr, raw, s₁, haddr, (Exec.ofStop_eq_ok hraw).1, ?_⟩
  cases ty with
  | int width => exact ⟨.inr ⟨width, (EStateM.Result.ok.inj hend).1.symm⟩, Ty.noConfusion⟩
  | ptr =>
    have heq := (EStateM.Result.ok.inj hend).1.symm
    exact ⟨.inl heq, fun _ => heq⟩
  | void => exact ⟨.inl (EStateM.Result.ok.inj hend).1.symm, Ty.noConfusion⟩

theorem step_binary_eq_ok {op : BinOp} {lhs rhs : Value}
    (hkind : a.function.kind i = .ok (.binary op lhs rhs))
    (h : w.step caller a frame i s = .ok value s') : ∃ width x y s₁ s₂ s₃,
      widthOf a (.inst i) s = .ok width s₁ ∧ w.eval a frame lhs s₁ = .ok x s₂ ∧
        w.eval a frame rhs s₂ = .ok y s₃ ∧ value = op.evaluate width x y := by
  rw [step, hkind, Exec.ofChecked_ok, pure_bind] at h
  obtain ⟨width, s₁, hwidth, h⟩ := Exec.bind_eq_ok.mp h
  obtain ⟨x, s₂, hx, h⟩ := Exec.bind_eq_ok.mp h
  obtain ⟨y, s₃, hy, h⟩ := Exec.bind_eq_ok.mp h
  exact ⟨width, x, y, s₁, s₂, s₃, hwidth, hx, hy, (EStateM.Result.ok.inj h).1.symm⟩

theorem step_zext_eq_ok {operand : Value} {width : Nat}
    (hkind : a.function.kind i = .ok (.cast .zext operand width))
    (h : w.step caller a frame i s = .ok value s') : ∃ source x s₁ s₂,
      w.eval a frame operand s₁ = .ok x s₂ ∧ value = mask width (mask source x) := by
  rw [step, hkind, Exec.ofChecked_ok, pure_bind] at h
  obtain ⟨source, s₁, -, h⟩ := Exec.bind_eq_ok.mp h
  obtain ⟨x, s₂, hx, h⟩ := Exec.bind_eq_ok.mp h
  exact ⟨source, x, s₁, s₂, hx, (EStateM.Result.ok.inj h).1.symm⟩

theorem step_gep_eq_ok {base offset : Value} {width : Nat}
    (hkind : a.function.kind i = .ok (.gep base offset))
    (hwidth : a.function.intWidth? offset = .ok (some width))
    (h : w.step caller a frame i s = .ok value s') : ∃ x y s₁ s₂,
      w.eval a frame offset s = .ok x s₁ ∧ w.eval a frame base s₁ = .ok y s₂ ∧
        value = y + (signExtend width x).toUInt64 := by
  rw [step, hkind, Exec.ofChecked_ok, pure_bind] at h
  obtain ⟨width', s₁, hwidth', h⟩ := Exec.bind_eq_ok.mp h
  rw [widthOf, hwidth] at hwidth'
  obtain ⟨rfl, rfl⟩ := EStateM.Result.ok.inj hwidth'
  obtain ⟨x, s₂, hx, h⟩ := Exec.bind_eq_ok.mp h
  obtain ⟨y, s₃, hy, h⟩ := Exec.bind_eq_ok.mp h
  exact ⟨x, y, s₂, s₃, hx, hy, (EStateM.Result.ok.inj h).1.symm⟩

end

/-! ## What steps leave alone -/

/-- A store leaves memory as writing a word does. -/
theorem step_store_leaves {inv : Memory → Prop} {caller : Caller} {i : InstId} {value ptr : Value}
    {ty : Ty} (hkind : a.function.kind i = .ok (.store value ptr))
    (hty : a.function.valueType value = .ok ty) (hsize : ty.storeSize ≤ 8) (hinv : inv s.memory)
    (hwrite : ∀ word addr s₁ s₂ m', w.eval a frame value s = .ok word s₁ →
      w.eval a frame ptr s₁ = .ok addr s₂ →
      Memory.write addr (leBytes ty.storeSize word) s.memory = .ok () m' → inv m') :
    (w.step caller a frame i).Leaves inv s := by
  unfold step
  rw [hkind, Exec.ofChecked_ok, pure_bind]
  dsimp only
  rw [hty, Exec.ofChecked_ok, pure_bind]
  refine (w.still_eval a frame value).bind_leaves hinv fun word s₁ hword hs₁ => ?_
  refine (w.still_eval a frame ptr).bind_leaves (by rwa [hs₁]) fun addr s₂ haddr hs₂ => ?_
  have hmemory : s₂.memory = s.memory := hs₂.trans hs₁
  have hleaves : (Exec.access (Memory.writeWord addr ty.storeSize word)).Leaves inv s₂ := by
    rw [Memory.writeWord_eq hsize]
    refine Exec.leaves_access (fun u m' h => ?_) fun cause m' h => ?_
    · exact hwrite word addr s₁ s₂ m' hword haddr (hmemory ▸ h)
    · rwa [Memory.write_error h, hmemory]
  exact Exec.leaves_bind.mpr ⟨fun _ _ => hleaves.of_ok, fun _ _ => hleaves.of_error⟩

/-- Calling the trace hook changes no memory. -/
theorem still_traceHook (args : List UInt64) :
    (w.callDeclared (.declare Symbol.traceHook [.i32] .void) args).Still := by
  have hbuiltin : Builtin.ofName? (Function.declare Symbol.traceHook [.i32] .void).name =
      some .trace := by decide
  exact still_callDeclared hbuiltin (by decide) args

/-- Only phis take values when a block is entered. -/
theorem isPhi_of_mem_phiValues {source : BlockId} {phis : List InstId}
    {values : List (InstId × UInt64)} (h : w.phiValues a frame source phis s = .ok values s')
    {entry : InstId × UInt64} (hentry : entry ∈ values) :
    ∃ ty incoming, a.function.kind entry.1 = .ok (.phi ty incoming) := by
  induction phis generalizing values s s' with
  | nil =>
    obtain ⟨rfl, -⟩ := EStateM.Result.ok.inj h
    cases hentry
  | cons phi rest ih =>
    rw [phiValues] at h
    obtain ⟨kind, hkind, h⟩ := Exec.ofChecked_bind_eq_ok.mp h
    cases kind with
    | phi ty incoming =>
      dsimp only at h
      cases hfind : incoming.find? fun entry => entry.2 == source with
      | none =>
        rw [hfind] at h
        cases h
      | some found =>
        rw [hfind] at h
        obtain ⟨value, s₁, -, h⟩ := Exec.bind_eq_ok.mp h
        obtain ⟨others, s₂, hrest, h⟩ := Exec.bind_eq_ok.mp h
        obtain ⟨rfl, -⟩ := EStateM.Result.ok.inj h
        obtain rfl | hentry := List.mem_cons.mp hentry
        · exact ⟨ty, incoming, hkind⟩
        · exact ih hrest hentry
    | _ => exact ih h hentry

theorem isPhi_of_mem_enteredPhis {source : Option BlockId} {phis : List InstId}
    {values : List (InstId × UInt64)} (h : w.enteredPhis a frame source phis s = .ok values s')
    {entry : InstId × UInt64} (hentry : entry ∈ values) :
    ∃ ty incoming, a.function.kind entry.1 = .ok (.phi ty incoming) := by
  cases source with
  | some source => exact isPhi_of_mem_phiValues h hentry
  | none =>
    obtain ⟨rfl, -⟩ := EStateM.Result.ok.inj h
    cases hentry

theorem getElem?_setAll {values : List (InstId × UInt64)} {id : InstId}
    (h : ∀ entry ∈ values, entry.1 ≠ id) : (setAll frame values)[id]? = frame[id]? := by
  induction values generalizing frame with
  | nil => rfl
  | cons entry rest ih =>
    have hstep : setAll frame (entry :: rest) = setAll (frame.insert entry.1 entry.2) rest := rfl
    rw [hstep, ih fun e he => h e (List.mem_cons_of_mem _ he), Std.HashMap.getElem?_insert,
      if_neg (by simpa using h entry List.mem_cons_self)]

/-! ## What probes compute -/

/-- What probes rely on in a world: the words that they refer to are where the layout says, the
trace hook has no body, and what has been added to the functions is the work of probes. -/
structure Counts (w : World) (hooks : Hooks) (previous : GlobalId) (l : CoverageLayout)
    (base : FuncId → Nat) (bits : Nat) : Prop where
  hasPrevious : hooks.previous = some previous
  area : w.globalAddr hooks.area = .ok l.area
  previous : w.globalAddr previous = .ok l.previous
  apart : l.Apart
  le_size : 2 ^ bits ≤ l.size
  probed : ∀ id f, w.module.function id = .ok f → f.Probed hooks (base id) (2 ^ bits)
  trace : ∀ id, hooks.trace = some id →
    w.module.function id = .ok (.declare Symbol.traceHook [.i32] .void)

end World

/-- What the instruction of a classic probe at a position computes. -/
def CoverageLayout.Fits (l : CoverageLayout) (bound : Nat) : Nat → UInt64 → Prop
  | 0, value => value = l.map
  | 1, value => value.toNat < bound
  | 2, value => value.toNat < bound
  | 3, value => value.toNat < bound
  | 4, value => l.map.toNat ≤ value.toNat ∧ value.toNat < l.map.toNat + bound
  | _, _ => True

theorem toNat_mask_le (width : Nat) (bits : UInt64) : (mask width bits).toNat ≤ bits.toNat := by
  rw [toNat_mask]
  exact Nat.mod_le _ _

namespace World.Counts

variable {w : World} {hooks : Hooks} {previous : GlobalId} {l : CoverageLayout} {base : FuncId → Nat}
  {bits first slot : Nat} {a : Activation} {frame : Frame} {s s' : Store}
  (h : w.Counts hooks previous l base bits)
include h

/-- Each instruction of a probe computes what it is to if those before it have. -/
theorem fits (hready : l.Ready (2 ^ bits) s.memory)
    (hat : a.function.ClassicAt hooks.area previous first slot) (hslot : slot < 2 ^ bits)
    (hframe : ∀ j value, frame[(⟨first + j⟩ : InstId)]? = some value → l.Fits (2 ^ bits) j value)
    {caller : Caller} {j : Nat} {value : UInt64}
    (hstep : w.step caller a frame ⟨first + j⟩ s = .ok value s') : l.Fits (2 ^ bits) j value := by
  rcases j with _ | _ | _ | _ | _ | j
  · obtain ⟨addr, raw, s₁, haddr, hraw, -, hvalue⟩ := step_load_eq_ok hat.base hstep
    obtain ⟨rfl, rfl⟩ := eval_global_eq_ok h.area haddr
    rw [hvalue rfl]
    exact (Except.ok.inj (hready.readWord_area.symm.trans hraw)).symm
  · obtain ⟨addr, raw, s₁, haddr, hraw, hvalue, -⟩ := step_load_eq_ok hat.last hstep
    obtain ⟨rfl, rfl⟩ := eval_global_eq_ok h.previous haddr
    obtain ⟨last, hlast, hread⟩ := hready.readWord_previous
    obtain rfl := Except.ok.inj (hread.symm.trans hraw)
    obtain rfl | ⟨width, rfl⟩ := hvalue
    · exact hlast
    · exact (toNat_mask_le width last).trans_lt hlast
  · obtain ⟨width, x, y, s₁, s₂, s₃, -, hx, hy, rfl⟩ := step_binary_eq_ok hat.mixed hstep
    have hlast : x.toNat < 2 ^ bits := hframe 1 x (eval_inst_eq_ok hx).1
    obtain ⟨rfl, -⟩ := eval_ofWord_eq_ok hy
    have hword : (mask 32 (UInt64.ofNat slot)).toNat < 2 ^ bits := by
      refine (toNat_mask_le 32 _).trans_lt (lt_of_le_of_lt ?_ hslot)
      rw [UInt64.toNat_ofNat']
      exact Nat.mod_le _ _
    refine (toNat_mask_le width _).trans_lt ?_
    rw [UInt64.toNat_xor]
    exact Nat.xor_lt_two_pow hlast hword
  · obtain ⟨source, x, s₁, s₂, hx, rfl⟩ := step_zext_eq_ok hat.wide hstep
    have hmixed : x.toNat < 2 ^ bits := hframe 2 x (eval_inst_eq_ok hx).1
    exact ((toNat_mask_le 64 _).trans (toNat_mask_le source x)).trans_lt hmixed
  · have hwidth : a.function.intWidth? (.inst ⟨first + 3⟩) = .ok (some 64) := by
      rw [Function.intWidth?, Function.valueType_of_fixedType? hat.wide rfl]
      rfl
    obtain ⟨x, y, s₁, s₂, hx, hy, rfl⟩ := step_gep_eq_ok hat.counter hwidth hstep
    have hwide : x.toNat < 2 ^ bits := hframe 3 x (eval_inst_eq_ok hx).1
    obtain rfl : y = l.map := hframe 0 y (eval_inst_eq_ok hy).1
    have hsize := h.le_size
    have hmap := h.apart.map
    have hsum : (l.map + (signExtend 64 x).toUInt64).toNat = l.map.toNat + x.toNat := by
      have hword : (signExtend 64 x).toUInt64 = x := by simp [signExtend]
      rw [hword, UInt64.toNat_add, Nat.mod_eq_of_lt (by omega)]
    exact ⟨by omega, by omega⟩
  · trivial

/-- A probe that counts leaves its two words as they are to be. -/
theorem count_leaves (hready : l.Ready (2 ^ bits) s.memory)
    (hat : a.function.ClassicAt hooks.area previous first slot) (hslot : slot < 2 ^ bits)
    (hframe : ∀ j value, frame[(⟨first + j⟩ : InstId)]? = some value → l.Fits (2 ^ bits) j value)
    {caller : Caller} {k : Nat} (hk : k < 9) :
    (w.step caller a frame ⟨first + k⟩).Leaves (l.Ready (2 ^ bits)) s := by
  have htype : a.function.valueType (.inst ⟨first + 6⟩) = .ok .i8 := by
    obtain ⟨depth, hdepth⟩ : ∃ depth, a.function.insts.size = depth + 1 :=
      ⟨a.function.insts.size - 1, by have := Function.index_lt_of_kind hat.more; omega⟩
    rw [Function.valueType, hdepth, Function.valueTypeWithin_of_typeOperand? hat.more rfl,
      Function.valueTypeWithin_of_fixedType? hat.count rfl]
  have hbump : (w.step caller a frame ⟨first + 7⟩).Leaves (l.Ready (2 ^ bits)) s := by
    refine step_store_leaves hat.bump htype (by decide) hready fun word addr s₁ s₂ m' _ haddr hwrite => ?_
    have hcounter : l.Fits (2 ^ bits) 4 addr := hframe 4 addr (eval_inst_eq_ok haddr).1
    exact hready.of_spares (h.apart.write_map hcounter.1 hwrite)
  have hleave : (w.step caller a frame ⟨first + 8⟩).Leaves (l.Ready (2 ^ bits)) s := by
    refine step_store_leaves hat.leave (Function.valueType_ofWord _ _ _) (by decide) hready
      fun word addr s₁ s₂ m' hword haddr hwrite => ?_
    obtain ⟨rfl, rfl⟩ := eval_ofWord_eq_ok hword
    obtain ⟨rfl, -⟩ := eval_global_eq_ok h.previous haddr
    refine hready.write_previous h.apart ((toNat_mask_le 32 _).trans_lt ?_) hwrite
    rw [UInt64.toNat_ofNat']
    exact ((Nat.mod_le _ _).trans (Nat.div_le_self slot 2)).trans_lt hslot
  obtain rfl | rfl | rfl | rfl | rfl | rfl | rfl | rfl | rfl :
      k = 0 ∨ k = 1 ∨ k = 2 ∨ k = 3 ∨ k = 4 ∨ k = 5 ∨ k = 6 ∨ k = 7 ∨ k = 8 := by omega
  · exact (still_step hat.base rfl).leaves hready
  · exact (still_step hat.last rfl).leaves hready
  · exact (still_step hat.mixed rfl).leaves hready
  · exact (still_step hat.wide rfl).leaves hready
  · exact (still_step hat.counter rfl).leaves hready
  · exact (still_step hat.count rfl).leaves hready
  · exact (still_step hat.more rfl).leaves hready
  · exact hbump
  · exact hleave

/-- What has been added to a function leaves the words as they are to be. -/
theorem added_leaves {id : FuncId} {i : InstId} (hid : w.module.function id = .ok a.function)
    (hi : base id ≤ i.index) (hready : l.Ready (2 ^ bits) s.memory)
    (hframe : ∀ first slot, slot < 2 ^ bits → a.function.CountsAt hooks first slot →
      ∀ j value, frame[(⟨first + j⟩ : InstId)]? = some value → l.Fits (2 ^ bits) j value) :
    (w.step w.alone a frame i).Leaves (l.Ready (2 ^ bits)) s := by
  cases hkind : a.function.kind i with
  | error fault =>
    unfold step
    rw [hkind]
    exact hready
  | ok kind =>
    cases hphi : kind.isPhi with
    | true =>
      cases kind with
      | phi ty incoming => exact (still_step hkind rfl).leaves hready
      | _ => cases hphi
    | false =>
      obtain rfl | ⟨number, hmem⟩ | ⟨first, slot, k, -, hslot, hcounts, hk, rfl⟩ :=
        h.probed id a.function hid i kind hkind hi hphi
      · exact (still_step hkind rfl).leaves hready
      · obtain ⟨trace, htrace, rfl⟩ := Hooks.eq_of_mem_traceCode hmem
        have hhook : w.alone trace = w.callDeclared (.declare Symbol.traceHook [.i32] .void) := by
          unfold alone enter
          rw [h.trace trace htrace]
          rfl
        have hcall : w.step w.alone a frame i = (do
            let values ← [Value.ofWord 32 (UInt64.ofNat number)].mapM (w.eval a frame)
            w.alone trace values) := by
          rw [step, hkind]
          rfl
        rw [hcall, hhook]
        exact (Exec.Still.bind (Exec.still_mapM (w.still_eval a frame) _)
          still_traceHook).leaves hready
      · have hlt := (List.getElem?_eq_some_iff.mp hk).1
        rw [Hooks.countCode, h.hasPrevious] at hlt
        exact h.count_leaves hready (hcounts.classic h.hasPrevious) hslot
          (hframe first slot hslot hcounts) hlt

/-- The values that probes have computed so far are what they are to be. -/
def Good (w : World) (hooks : Hooks) (l : CoverageLayout) (bits : Nat) (id : FuncId)
    (a : Activation) (frame : Frame) : Prop :=
  w.module.function id = .ok a.function ∧
    ∀ first slot, slot < 2 ^ bits → a.function.CountsAt hooks first slot →
      ∀ j value, frame[(⟨first + j⟩ : InstId)]? = some value → l.Fits (2 ^ bits) j value

/-- As long as the program writes neither of the words of probes, every probe finds them as they are
to be and leaves them so. -/
theorem sustained : w.Sustained (l.Ready (2 ^ bits)) (Good w hooks l bits)
    (w.ProgramKeeps l.Spares fun id i => i.index < base id) where
  start args hid := by
    refine ⟨hid, fun first slot _ _ j value hvalue => ?_⟩
    simp at hvalue
  phis := by
    intro id a frame source phis s values s' hgood hvalues
    refine ⟨hgood.1, fun first slot hslot hcounts j value hvalue => ?_⟩
    by_cases hj : j < 9
    · have hne : ∀ entry ∈ values, entry.1 ≠ ⟨first + j⟩ := by
        rintro entry hentry heq
        obtain ⟨ty, incoming, hkind⟩ := isPhi_of_mem_enteredPhis hvalues hentry
        obtain ⟨kind, hk⟩ : ∃ kind, (hooks.countCode first slot)[j]? = some kind := by
          rw [Hooks.countCode, h.hasPrevious]
          exact ⟨_, List.getElem?_eq_getElem hj⟩
        rw [heq, hcounts j kind hk] at hkind
        obtain rfl := Except.ok.inj hkind
        cases (Hooks.plain_of_mem_countCode (List.mem_of_getElem? hk)).1
      rw [getElem?_setAll hne] at hvalue
      exact hgood.2 first slot hslot hcounts j value hvalue
    · obtain ⟨k, rfl⟩ : ∃ k, j = k + 5 := ⟨j - 5, by omega⟩
      trivial
  value := by
    intro id a frame caller i s value s' hgood hready hstep
    refine ⟨hgood.1, fun first slot hslot hcounts j found hfound => ?_⟩
    have hframe := hgood.2 first slot hslot hcounts
    rw [Std.HashMap.getElem?_insert] at hfound
    split at hfound
    · next heq =>
      obtain rfl := Option.some.inj hfound
      obtain rfl := beq_iff_eq.mp heq
      exact h.fits hready (hcounts.classic h.hasPrevious) hslot hframe hstep
    · exact hframe j found hfound
  step := by
    intro id a n es block i insts frame s s₁ hgood hready hallowed htick
    have hs₁ : l.Ready (2 ^ bits) s₁.memory := by rwa [(Exec.still_tick s).of_ok htick]
    obtain hprogram | hadded := Nat.lt_or_ge i.index (base id)
    · exact (hallowed hprogram s₁ htick).mono fun _ => hs₁.of_spares
    · exact h.added_leaves hgood.1 hadded hs₁ hgood.2
  terminator := by
    intro id a n es block frame b s s₁ hgood hready hallowed hb htick
    have hs₁ : l.Ready (2 ^ bits) s₁.memory := by rwa [(Exec.still_tick s).of_ok htick]
    exact (hallowed b s₁ hb htick).mono fun _ => hs₁.of_spares

end World.Counts

end EdgeProbe
