import EdgeProbe.Proofs.Machine.Exec
import EdgeProbe.Proofs.Validity.Local
import EdgeProbe.Word.Lemmas

/-!
# What a fresh machine holds

Memory only grows, and what is appended leaves what was there alone (`Memory.Grows`). So the globals
that are placed one after the other are all still there in the end (`Machine.ofModule_holds`).

`Module.constantBytes?` reads a literal off the module: it follows constant offsets back to a global
and cuts the contents. A fresh machine computes an address from the same offsets. The two agree when
each offset goes as far as its bits say (`Machine.literal_in_memory`), and they part at an offset
with the sign bit of its width set, which the machine follows backwards
(`Machine.backwards_literal_not_in_memory`).
-/

namespace EdgeProbe

namespace Access

variable {α β : Type} {m m' : Memory}

theorem bind_eq_ok {x : Access α} {k : α → Access β} {b : β} :
    (x >>= k) m = .ok b m' ↔ ∃ a m₁, x m = .ok a m₁ ∧ k a m₁ = .ok b m' := by
  change EStateM.bind x k m = _ ↔ _
  unfold EStateM.bind
  cases x m with
  | ok a m₁ => simp
  | error cause m₁ => simp

theorem bind_eq_error {x : Access α} {k : α → Access β} {cause : Stop} :
    (x >>= k) m = .error cause m' ↔
      x m = .error cause m' ∨ ∃ a m₁, x m = .ok a m₁ ∧ k a m₁ = .error cause m' := by
  change EStateM.bind x k m = _ ↔ _
  unfold EStateM.bind
  cases x m with
  | ok a m₁ => simp
  | error cause m₁ => simp

end Access

namespace Memory

variable {m m' m'' : Memory} {addr : UInt64} {len : Nat} {bytes data : List UInt8}

theorem inBounds_iff : m.inBounds addr len = true ↔
    reserved ≤ addr.toNat ∧ addr.toNat + len ≤ m.size := by
  rw [inBounds, Bool.and_eq_true, decide_eq_true_eq, decide_eq_true_eq]

theorem write_eq_ok : write addr data m = .ok () m' ↔
    m.inBounds addr data.length = true ∧
      m' = { m with bytes := overwrite m.bytes addr.toNat data } := by
  unfold write
  split
  · next hin =>
    rw [EStateM.Result.ok.injEq, eq_self, true_and, eq_comm]
    exact (and_iff_right hin).symm
  · next hout => exact iff_of_false nofun fun h => hout h.1

/-- At an address are these bytes, all of them in bounds. -/
def Holds (m : Memory) (addr : UInt64) (bytes : List UInt8) : Prop :=
  reserved ≤ addr.toNat ∧ addr.toNat + bytes.length ≤ m.size ∧
    ∀ i < bytes.length, m.bytes[addr.toNat + i]? = bytes[i]?

/-- No byte is changed or taken away. -/
def Grows (m m' : Memory) : Prop :=
  m.size ≤ m'.size ∧ ∀ i < m.size, m'.bytes[i]? = m.bytes[i]?

theorem Grows.refl (m : Memory) : m.Grows m :=
  ⟨le_rfl, fun _ _ => rfl⟩

theorem Grows.trans (h : m.Grows m') (h' : m'.Grows m'') : m.Grows m'' :=
  ⟨h.1.trans h'.1, fun i hi => (h'.2 i (hi.trans_le h.1)).trans (h.2 i hi)⟩

theorem Holds.of_grows (h : m.Holds addr bytes) (hgrows : m.Grows m') : m'.Holds addr bytes := by
  obtain ⟨hreserved, hsize, hbytes⟩ := h
  exact ⟨hreserved, hsize.trans hgrows.1, fun i hi =>
    (hgrows.2 _ (by omega)).trans (hbytes i hi)⟩

theorem Holds.read_eq (h : m.Holds addr bytes) : m.read addr bytes.length = .ok bytes.toArray := by
  obtain ⟨hreserved, hsize, hbytes⟩ := h
  rw [read, if_pos (inBounds_iff.mpr ⟨hreserved, hsize⟩)]
  congr 1
  refine Array.ext_getElem? fun i => ?_
  have hsize' : addr.toNat + bytes.length ≤ m.bytes.size := hsize
  by_cases hi : i < bytes.length
  · rw [Array.getElem?_extract, if_pos (by omega), hbytes i hi, List.getElem?_toArray]
  · rw [Array.getElem?_extract, if_neg (by omega), List.getElem?_toArray,
      List.getElem?_eq_none (by omega)]

/-- The bytes from one of them on are as far behind the address. -/
theorem Holds.drop (h : m.Holds addr bytes) (hbound : m.size < sizeBound) {n : UInt64}
    (hn : n.toNat ≤ bytes.length) : m.Holds (addr + n) (bytes.drop n.toNat) := by
  obtain ⟨hreserved, hsize, hbytes⟩ := h
  have hlt : m.size < 2 ^ 63 := hbound
  have hsum : (addr + n).toNat = addr.toNat + n.toNat := by
    rw [UInt64.toNat_add, Nat.mod_eq_of_lt (by omega)]
  refine ⟨by omega, by rw [hsum, List.length_drop]; omega, fun i hi => ?_⟩
  rw [List.length_drop] at hi
  rw [hsum, List.getElem?_drop, Nat.add_assoc, hbytes _ (by omega)]

/-! ## Fresh regions -/

theorem getElem?_overwrite (bytes : Array UInt8) (index : Nat) (data : List UInt8) (i : Nat)
    (hsize : index + data.length ≤ bytes.size) :
    (overwrite bytes index data)[i]? =
      if index ≤ i ∧ i < index + data.length then data[i - index]? else bytes[i]? := by
  induction data generalizing bytes index with
  | nil => simp [overwrite, show ¬(index ≤ i ∧ i < index) by omega]
  | cons byte rest ih =>
    rw [List.length_cons] at hsize ⊢
    rw [overwrite, ih _ _ (by simp; omega), Array.getElem?_setIfInBounds]
    by_cases hlater : index + 1 ≤ i ∧ i < index + 1 + rest.length
    · obtain ⟨k, rfl⟩ : ∃ k, i = index + (k + 1) := ⟨i - index - 1, by omega⟩
      rw [if_pos hlater, if_pos (by omega), show index + (k + 1) - (index + 1) = k by omega,
        show index + (k + 1) - index = k + 1 by omega, List.getElem?_cons_succ]
    · rw [if_neg hlater]
      by_cases hi : index = i
      · subst hi
        simp [show index < bytes.size by omega]
      · rw [if_neg hi, if_neg (by omega)]

/-- A region is appended, and there is room for all of it. -/
theorem alloc_appends (h : alloc len m = .ok addr m') :
    m.Grows m' ∧ m.size ≤ addr.toNat ∧ addr.toNat + len ≤ m'.size ∧ m'.size < sizeBound := by
  simp only [alloc] at h
  split at h
  next hstop =>
    injection h with haddr hm
    have hle := le_roundUp m.size 8
    have hlt : roundUp m.size 8 + max len 1 < 2 ^ 63 := hstop
    have hnat : addr.toNat = roundUp m.size 8 := by
      rw [← haddr, UInt64.toNat_ofNat', Nat.mod_eq_of_lt (by omega)]
    have hsize : m'.size = roundUp m.size 8 + max len 1 := by
      rw [← hm]
      simp only [size, Array.size_append, Array.size_replicate] at hle ⊢
      omega
    refine ⟨⟨by omega, fun i hi => ?_⟩, by omega, by omega, by omega⟩
    rw [← hm, Array.getElem?_append_left hi]
  next => cases h

/-- A fresh region holds what it was made for. -/
theorem allocBytes_holds (h : allocBytes data m = .ok addr m') (hm : reserved ≤ m.size) :
    m.Grows m' ∧ m'.Holds addr data ∧ m'.size < sizeBound := by
  unfold allocBytes at h
  obtain ⟨addr', m₁, halloc, h⟩ := Access.bind_eq_ok.mp h
  obtain ⟨⟨⟩, m₂, hwrite, h⟩ := Access.bind_eq_ok.mp h
  obtain ⟨rfl, rfl⟩ := EStateM.Result.ok.inj h
  obtain ⟨hgrows, hstart, hstop, hbound⟩ := alloc_appends halloc
  obtain ⟨-, rfl⟩ := write_eq_ok.mp hwrite
  have hlookup : ∀ i, (overwrite m₁.bytes addr'.toNat data)[i]? = _ := fun i =>
    getElem?_overwrite m₁.bytes addr'.toNat data i hstop
  refine ⟨⟨by simpa [size] using hgrows.1, fun i hi => ?_⟩,
    ⟨by omega, by simpa [size] using hstop, fun i hi => ?_⟩, by simpa [size] using hbound⟩
  · rw [hlookup, if_neg (by omega), hgrows.2 i hi]
  · rw [hlookup, if_pos (by omega), Nat.add_sub_cancel_left]

end Memory

namespace Machine

variable {globals : List Global} {addrs addrs' : Array UInt64} {m m' : Memory}

/-- Placing some globals after others leaves those where they are and what they hold. -/
theorem placeGlobals_holds (h : placeGlobals globals addrs m = .ok addrs' m')
    (hm : Memory.reserved ≤ m.size) (hbound : m.size < Memory.sizeBound) :
    m.Grows m' ∧ m'.size < Memory.sizeBound ∧
      (∀ i < addrs.size, addrs'[i]? = addrs[i]?) ∧
      ∀ (i : Nat) g contents, globals[i]? = some g → g.contents = some contents →
        ∃ addr, addrs'[addrs.size + i]? = some addr ∧ m'.Holds addr contents.toBytes := by
  induction globals generalizing addrs m with
  | nil =>
    injection h with haddrs hm
    subst haddrs hm
    exact ⟨.refl _, hbound, fun _ _ => rfl, fun i g contents hg => nomatch hg⟩
  | cons g rest ih =>
    -- what the first global gets
    have hfirst : ∃ addr m₁, placeGlobals rest (addrs.push addr) m₁ = .ok addrs' m' ∧
        m.Grows m₁ ∧ m₁.size < Memory.sizeBound ∧
        ∀ contents, g.contents = some contents → m₁.Holds addr contents.toBytes := by
      rw [placeGlobals] at h
      cases hcontents : g.contents with
      | some contents =>
        rw [hcontents] at h
        obtain ⟨addr, m₁, hplaced, h⟩ := Access.bind_eq_ok.mp h
        obtain ⟨hgrows, hholds, hbound⟩ := Memory.allocBytes_holds hplaced hm
        exact ⟨addr, m₁, h, hgrows, hbound, fun _ h => Option.some.inj h ▸ hholds⟩
      | none =>
        rw [hcontents] at h
        obtain ⟨addr, m₁, hplaced, h⟩ := Access.bind_eq_ok.mp h
        obtain ⟨hgrows, -, -, hbound⟩ := Memory.alloc_appends hplaced
        exact ⟨addr, m₁, h, hgrows, hbound, fun _ h => nomatch h⟩
    obtain ⟨addr, m₁, h, hgrows, hbound₁, hholds⟩ := hfirst
    obtain ⟨hgrows', hbound', hkept, hrest⟩ := ih h (hm.trans hgrows.1) hbound₁
    rw [Array.size_push] at hkept hrest
    refine ⟨hgrows.trans hgrows', hbound', fun i hi => ?_, fun i g' contents hg hcontents => ?_⟩
    · rw [hkept i (by omega), Array.getElem?_push_lt hi, Array.getElem?_eq_getElem hi]
    · cases i with
      | zero =>
        obtain rfl := Option.some.inj hg
        exact ⟨addr, by rw [Nat.add_zero, hkept _ (by omega)]; simp,
          (hholds contents hcontents).of_grows hgrows'⟩
      | succ i =>
        obtain ⟨addr', haddr, hholds'⟩ := hrest i g' contents hg hcontents
        exact ⟨addr', by rw [← haddr]; congr 1; omega, hholds'⟩

variable {md : Module} {machine : Machine}

/-- A fresh machine runs the module, and holds its globals. -/
theorem ofModule_holds (h : ofModule md = .ok machine) :
    machine.world.module = md ∧ machine.store.memory.size < Memory.sizeBound ∧
      ∀ (id : GlobalId) g contents, md.globals[id.index]? = some g → g.contents = some contents →
        ∃ addr, machine.world.globals[id.index]? = some addr ∧
          machine.store.memory.Holds addr contents.toBytes := by
  unfold ofModule at h
  split at h
  next addrs memory hplaced =>
    obtain rfl := Except.ok.inj h
    obtain ⟨-, hbound, -, hholds⟩ := placeGlobals_holds hplaced (by decide) (by decide)
    refine ⟨rfl, hbound, fun id g contents hg hcontents => ?_⟩
    simpa using hholds id.index g contents (by simpa using hg) hcontents
  next => cases h

end Machine

end EdgeProbe

/-! ## Literals that are known without running -/

namespace EdgeProbe

namespace Function

/-- The instructions that compute a value from the address of a global by constant steps, in the
order in which they are executed. -/
inductive AddressedBy (f : Function) : Value → List InstId → Prop
  | global (id : GlobalId) : f.AddressedBy (.global id) []
  | gep {i : InstId} {base : Value} {width : Nat} {bits : UInt64} {chain : List InstId}
      (hkind : f.kind i = .ok (.gep base (.const (.int width bits))))
      (hbase : f.AddressedBy base chain) : f.AddressedBy (.inst i) (chain ++ [i])

/-- If the instruction steps by a constant, its width has the offset as its bits say. -/
def StepsForward (f : Function) (i : InstId) : Prop :=
  ∀ base width bits, f.kind i = .ok (.gep base (.const (.int width bits))) →
    (signExtend width bits).toUInt64 = bits

end Function

namespace World

variable {w : World} {caller : Caller} {a : Activation} {frame frame' : Frame} {s s' : Store}

theorem runInsts_append (front back : List InstId) :
    w.runInsts caller a (front ++ back) frame =
      w.runInsts caller a front frame >>= w.runInsts caller a back := by
  induction front generalizing frame with
  | nil => simp only [List.nil_append, runInsts, pure_bind]
  | cons i rest ih => simp only [List.cons_append, runInsts, bind_assoc, ih]

/-- A constant step adds its offset, as its width has it. -/
theorem step_gep_const {i : InstId} {base : Value} {width : Nat} {bits addr : UInt64}
    (hkind : a.function.kind i = .ok (.gep base (.const (.int width bits))))
    (hbase : w.eval a frame base = pure addr) :
    w.step caller a frame i = pure (addr + (signExtend width bits).toUInt64) := by
  have hwidth : widthOf a (.const (.int width bits)) = pure width := by
    rw [widthOf, Function.intWidth?, Function.valueType]
    cases a.function.insts.size <;> rfl
  have hoffset : w.eval a frame (.const (.int width bits)) = pure bits := rfl
  simp only [step, hkind, Exec.ofChecked_ok, pure_bind, hwidth, hoffset, hbase]

/-- Executing some instructions uses as many steps, and a value is an address then. -/
def Addresses (w : World) (f : Function) (chain : List InstId) (value : Value) (addr : UInt64) :
    Prop :=
  ∀ caller args frame s, chain.length ≤ s.stepsLeft → ∃ frame',
    w.runInsts caller ⟨f, args⟩ chain frame s =
      .ok frame' (s.withSteps (s.stepsLeft - chain.length)) ∧
    w.eval ⟨f, args⟩ frame' value = pure addr

/-- One step more leads from an address to the one behind the offset. -/
theorem Addresses.gep {f : Function} {chain : List InstId} {base : Value} {addr bits : UInt64}
    {i : InstId} {width : Nat} (h : w.Addresses f chain base addr)
    (hkind : f.kind i = .ok (.gep base (.const (.int width bits)))) :
    w.Addresses f (chain ++ [i]) (.inst i) (addr + (signExtend width bits).toUInt64) := by
  intro caller args frame s hsteps
  rw [List.length_append, List.length_singleton] at hsteps ⊢
  obtain ⟨frame', hrun, heval⟩ := h caller args frame s (by omega)
  have htick : Exec.tick (s.withSteps (s.stepsLeft - chain.length)) =
      .ok () (s.withSteps (s.stepsLeft - (chain.length + 1))) := by
    obtain ⟨left, hleft⟩ : ∃ left, s.stepsLeft - chain.length = left + 1 :=
      ⟨s.stepsLeft - chain.length - 1, by omega⟩
    rw [hleft, show s.stepsLeft - (chain.length + 1) = left by omega]
    rfl
  refine ⟨frame'.insert i (addr + (signExtend width bits).toUInt64), ?_, by simp [eval]⟩
  rw [runInsts_append]
  refine Exec.bind_eq_ok.mpr ⟨frame', _, hrun, ?_⟩
  simp only [runInsts, step_gep_const hkind heval, pure_bind]
  exact Exec.bind_eq_ok.mpr ⟨(), _, htick, rfl⟩

end World

namespace Module

variable {m : Module} {f : Function} {value : Value} {bytes : List UInt8}

theorem global_eq_ok {id : GlobalId} {g : Global} :
    m.global id = .ok g ↔ m.globals[id.index]? = some g := by
  unfold global
  cases m.globals[id.index]? <;> simp

/-- A literal is what a constant global holds, or what is behind an offset in another one. -/
theorem constantBytesWithin_cases {depth : Nat}
    (h : m.constantBytesWithin f depth value = .ok (some bytes)) :
    (∃ id g, value = .global id ∧ m.globals[id.index]? = some g ∧
      g.contents = some (.bytes bytes)) ∨
    ∃ i base width bits depth' data, value = .inst i ∧ depth = depth' + 1 ∧
      f.kind i = .ok (.gep base (.const (.int width bits))) ∧
      m.constantBytesWithin f depth' base = .ok (some data) ∧ bits.toNat ≤ data.length ∧
      bytes = data.drop bits.toNat := by
  unfold constantBytesWithin at h
  split at h
  next id =>
    obtain ⟨g, hg, h⟩ := Checked.bind_eq_ok.mp h
    split at h
    next data hcontents =>
      split at h
      · obtain rfl := Option.some.inj (Checked.pure_eq_ok.mp h)
        exact .inl ⟨id, g, rfl, global_eq_ok.mp hg, hcontents⟩
      · cases h
    next => cases h
  next i =>
    obtain ⟨kind, hkind, h⟩ := Checked.bind_eq_ok.mp h
    split at h
    next base width bits =>
      split at h
      next => cases h
      next depth' _ =>
        obtain ⟨data?, hdata, h⟩ := Checked.bind_eq_ok.mp h
        obtain ⟨data, rfl, hcut⟩ := Option.bind_eq_some_iff.mp (Checked.pure_eq_ok.mp h)
        rw [ite_eq_iff] at hcut
        obtain ⟨hle, hcut⟩ | ⟨-, hcut⟩ := hcut
        · exact .inr ⟨i, base, width, bits, depth', data, rfl, rfl, hkind, hdata, hle,
            (Option.some.inj hcut).symm⟩
        · cases hcut
    next => cases h
  next => cases h

/-- A literal is no longer than what some global holds. -/
theorem length_le_of_constantBytesWithin {depth : Nat}
    (h : m.constantBytesWithin f depth value = .ok (some bytes)) :
    ∃ g ∈ m.globals, ∃ data, g.contents = some (.bytes data) ∧ bytes.length ≤ data.length := by
  induction depth using Nat.strong_induction_on generalizing value bytes with | _ depth ih
  obtain ⟨id, g, -, hg, hcontents⟩ | ⟨i, base, width, bits, depth', data, -, rfl, -, hdata, -, rfl⟩ :=
    constantBytesWithin_cases h
  · exact ⟨g, Array.mem_of_getElem? hg, bytes, hcontents, le_rfl⟩
  · obtain ⟨g, hg, whole, hcontents, hle⟩ := ih depth' depth'.lt_succ_self hdata
    refine ⟨g, hg, whole, hcontents, ?_⟩
    rw [List.length_drop]
    omega

end Module

namespace Machine

variable {m : Module} {machine : Machine} {f : Function} {value : Value} {bytes : List UInt8}

/-- A value with a literal is computed by constant steps, and what is at its address in a fresh
machine is the literal. -/
theorem exists_addresses (hmachine : ofModule m = .ok machine) {depth : Nat}
    (h : m.constantBytesWithin f depth value = .ok (some bytes)) :
    ∃ chain, f.AddressedBy value chain ∧ ((∀ i ∈ chain, f.StepsForward i) →
      ∃ addr, machine.world.Addresses f chain value addr ∧
        machine.store.memory.Holds addr bytes) := by
  obtain ⟨-, hbound, hplaced⟩ := ofModule_holds hmachine
  induction depth using Nat.strong_induction_on generalizing value bytes with | _ depth ih
  obtain ⟨id, g, rfl, hg, hcontents⟩ |
    ⟨i, base, width, bits, depth', data, rfl, rfl, hkind, hdata, hle, rfl⟩ :=
      Module.constantBytesWithin_cases h
  · obtain ⟨addr, haddr, hholds⟩ := hplaced id g _ hg hcontents
    refine ⟨[], .global id, fun _ => ⟨addr, fun caller args frame s _ => ⟨frame, rfl, ?_⟩, hholds⟩⟩
    rw [World.eval, World.globalAddr, haddr]
    rfl
  · obtain ⟨chain, hchain, hforward⟩ := ih depth' depth'.lt_succ_self hdata
    refine ⟨chain ++ [i], .gep hkind hchain, fun hall => ?_⟩
    obtain ⟨addr, haddr, hholds⟩ := hforward fun j hj => hall j (List.mem_append_left _ hj)
    have hbits := hall i List.mem_concat_self base width bits hkind
    exact ⟨addr + (signExtend width bits).toUInt64, haddr.gep hkind, by
      rw [hbits]
      exact hholds.drop hbound hle⟩

/-- Static literals agree with memory: the machine that executes the constant steps to a value of
which the literal is known, none of them backwards, has the literal at its address. -/
theorem literal_in_memory (hmachine : ofModule m = .ok machine)
    (h : m.constantBytes? f value = .ok (some bytes)) :
    ∃ chain, f.AddressedBy value chain ∧ ((∀ i ∈ chain, f.StepsForward i) →
      ∃ addr, machine.store.memory.read addr bytes.length = .ok bytes.toArray ∧
        ∀ caller args frame steps, chain.length ≤ steps →
          (machine.setStepBudget steps).exec (do
            let frame ← machine.world.runInsts caller ⟨f, args⟩ chain frame
            machine.world.eval ⟨f, args⟩ frame value) =
          (.ok addr, machine.setStepBudget (steps - chain.length))) := by
  obtain ⟨chain, hchain, hforward⟩ := exists_addresses hmachine h
  refine ⟨chain, hchain, fun hall => ?_⟩
  obtain ⟨addr, haddr, hholds⟩ := hforward hall
  refine ⟨addr, hholds.read_eq, fun caller args frame steps hsteps => ?_⟩
  obtain ⟨frame', hrun, heval⟩ := haddr caller args frame (machine.setStepBudget steps).store hsteps
  rw [exec, Exec.bind_eq_ok.mpr ⟨frame', _, hrun, congrFun heval _⟩]
  rfl

/-- A function that points behind the start of a literal, by an offset of four bits. -/
def point (offset : UInt64) : Function :=
  .sole "point" [] .ptr (.gep (.global ⟨0⟩) (.const (.int 4 offset)))

def pointing (offset : UInt64) : Module where
  name := "pointing"
  globals := #[{ name := "text", constant := true,
                 contents := some (.bytes (List.replicate 8 32 ++ [104, 105])) }]
  functions := #[point offset]

/-- An offset below 8 is followed forwards. -/
theorem pointing_literal_in_memory :
    ∃ machine addr, ofModule (pointing 7) = .ok machine ∧
      (pointing 7).constantBytes? (point 7) (.inst ⟨0⟩) = .ok (some [32, 104, 105]) ∧
      (point 7).AddressedBy (.inst ⟨0⟩) [⟨0⟩] ∧ (point 7).StepsForward ⟨0⟩ ∧
      machine.store.memory.read addr 3 = .ok #[32, 104, 105] := by
  obtain ⟨machine, hmachine⟩ : ∃ machine, ofModule (pointing 7) = .ok machine := ⟨_, rfl⟩
  have hbytes : (pointing 7).constantBytes? (point 7) (.inst ⟨0⟩) = .ok (some [32, 104, 105]) := by
    decide +kernel
  have hkind : (point 7).kind ⟨0⟩ = .ok (.gep (.global ⟨0⟩) (.const (.int 4 7))) := rfl
  have hsteps : (point 7).StepsForward ⟨0⟩ := by
    intro base width bits h
    cases hkind.symm.trans h
    decide
  obtain ⟨chain, hchain, hforward⟩ := literal_in_memory hmachine hbytes
  cases hchain with
  | gep hgep hbase =>
    cases hkind.symm.trans hgep
    cases hbase
    obtain ⟨addr, haddr, -⟩ := hforward (by simpa using hsteps)
    exact ⟨machine, addr, hmachine, hbytes, .gep hkind (.global _), hsteps, haddr⟩

/-- An offset of 8 is followed backwards. -/
theorem pointing_call {machine : Machine} (h : ofModule (pointing 8) = .ok machine) :
    (machine.call "point" []).1 = .ok 8 := by
  have hblock : (point 8).block ⟨0⟩ = .ok ⟨"entry", [⟨0⟩], .ret (some (.inst ⟨0⟩))⟩ := rfl
  have hphis : (point 8).phis ⟨0⟩ = .ok [] := rfl
  have hentry : (point 8).entryBlock? = some ⟨0⟩ := rfl
  have hkind : (Activation.mk (point 8) []).function.kind ⟨0⟩ =
      .ok (.gep (.global ⟨0⟩) (.const (.int 4 8))) := rfl
  have hworld : machine.world = { module := pointing 8, globals := #[16] } :=
    Except.ok.inj h ▸ rfl
  have hsteps : machine.store.stepsLeft = 1000000 := Except.ok.inj h ▸ rfl
  have hid : machine.world.module.findFunction? "point" = some ⟨0⟩ := by
    simp [hworld, Module.findFunction?, pointing, point, Function.sole, List.findIdx?_cons]
  have hfunction : machine.world.module.function ⟨0⟩ = .ok (point 8) := by
    rw [hworld]
    rfl
  have hbase : machine.world.eval ⟨point 8, []⟩ ∅ (.global ⟨0⟩) = pure 16 := by
    simp [hworld, World.eval, World.globalAddr]
  have hstep : ∀ caller, machine.world.step caller ⟨point 8, []⟩ ∅ ⟨0⟩ = pure 8 := fun _ =>
    (World.step_gep_const hkind hbase).trans (congrArg pure (by decide))
  rw [call, exec, World.call_of_found hid, World.enter, hfunction]
  simp only [Exec.ofChecked_ok, pure_bind, hentry, World.run_succ]
  simp [hblock, hphis, hstep, World.enteredPhis, World.setAll, World.rest_nil, World.rest_cons,
    World.runTerminator, World.eval]
  simp [bind, EStateM.bind, Functor.map, EStateM.map, Exec.tick, hsteps]

/-- A module is accepted in which a literal is known at an address that is out of bounds. -/
theorem backwards_literal_not_in_memory :
    ∃ machine, (pointing 8).Accepted ∧
      (pointing 8).constantBytes? (point 8) (.inst ⟨0⟩) = .ok (some [104, 105]) ∧
      ofModule (pointing 8) = .ok machine ∧
      (machine.call "point" []).1 = .ok 8 ∧
      machine.store.memory.read 8 2 = .error (.outOfBounds 8 2) :=
  ⟨_, Module.accepted_of_isLocal (by decide +kernel), by decide +kernel, rfl, pointing_call rfl, rfl⟩

end Machine

end EdgeProbe
